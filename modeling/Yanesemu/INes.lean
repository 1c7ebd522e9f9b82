import Yanesemu.Cartridge

/-!
# iNES files

What the header of an iNES file announces, and what `Cartridge::parse` makes of a file: where each
of its three reads starts and what the cartridge then holds (`parse_parsed`). Next to the file
this depends on the cartridge as it was and on the memory that was allocated.

The window of the CPU on the PRG ROM is at the end: `read_prgrom` computes in 16 bits.
-/

namespace Yanesemu

/-! ### The format -/

namespace INes

/-- The size of the trainer. -/
def trainerSize (header : ℕ → Uint8) : ℕ := if (header 6).getLsbD 2 then 512 else 0

/-- The size of the PRG ROM. -/
def prgSize (header : ℕ → Uint8) : ℕ := 16384 * (header 4).toNat

/-- The size of the CHR ROM. -/
def chrSize (header : ℕ → Uint8) : ℕ := 8192 * (header 5).toNat

/-- The PRG ROM follows the header and the trainer. -/
def prgStart (header : ℕ → Uint8) : ℕ := 16 + trainerSize header

/-- The CHR ROM follows the PRG ROM. -/
def chrStart (header : ℕ → Uint8) : ℕ := prgStart header + prgSize header

/-- The mapper number: its low and its high half. -/
def mapper (header : ℕ → Uint8) : Uint8 := header 6 >>> 4 ||| header 7 &&& 0xF0

/-- All that a header announces, itself included. -/
def size (header : ℕ → Uint8) : ℕ := chrStart header + chrSize header

end INes

/-- The header of a file. -/
def File.header (f : File) : ℕ → Uint8 := fun i => f.rest.getD i 0

/-- The file contains all the data its header announces. -/
def File.Complete (f : File) : Prop := INes.size f.header ≤ f.rest.length

/-- The elements of an array. -/
def HeapArray.toList {α : Type} (a : HeapArray α) : List α := (List.range a.size).map a.get

@[simp] theorem HeapArray.length_toList {α : Type} (a : HeapArray α) :
    a.toList.length = a.size := by
  simp [HeapArray.toList]

namespace Cartridge

open INes

/-! ### The reads of `parse` -/

/-- A new array with `fread` into it: what the file lacks stays as the memory was. -/
def loaded (n : ℕ) (fresh : ℕ → Uint8) (rest : List Uint8) : HeapArray Uint8 :=
  (HeapArray.reset n fresh).load (rest.take n)

theorem get_loaded {n : ℕ} {fresh : ℕ → Uint8} {rest : List Uint8} {i : ℕ} (hi : i < n) :
    (loaded n fresh rest).get i = rest.getD i (fresh i) := by
  show (rest.take n).getD i (fresh i) = _
  rw [List.getD_eq_getElem?_getD, List.getD_eq_getElem?_getD, List.getElem?_take_of_lt hi]

theorem toList_loaded {n : ℕ} {fresh : ℕ → Uint8} {rest : List Uint8} (h : n ≤ rest.length) :
    (loaded n fresh rest).toList = rest.take n := by
  apply List.ext_getElem
  · simp [HeapArray.toList, loaded, h]
  · intro i hi hi'
    have hin : i < n := by simpa [HeapArray.toList, loaded] using hi
    have hget : (loaded n fresh rest).get i = rest[i] := by
      have hlt : i < rest.length := by omega
      rw [get_loaded hin, List.getD_eq_getElem?_getD, List.getElem?_eq_getElem hlt]
      rfl
    simpa [HeapArray.toList] using hget

section Reads

variable (fresh : FreshRom) (s : Cartridge × File)

theorem loadTrainer_rest :
    (loadTrainer s).2.rest = s.2.rest.drop (if s.1.has.trainer then trainerLen else 0) := by
  unfold loadTrainer
  cases s.1.has.trainer <;> rfl

theorem loadPrgrom_prgrom :
    (loadPrgrom fresh s).1.prgrom = if s.1.has.prgram then s.1.prgrom
      else loaded (prgSize s.1.header) fresh.prg s.2.rest := by
  unfold loadPrgrom prgSize
  rw [Nat.mul_comm 16384]
  cases s.1.has.prgram <;> rfl

theorem loadPrgrom_rest :
    (loadPrgrom fresh s).2.rest =
      s.2.rest.drop (if s.1.has.prgram then 0 else prgSize s.1.header) := by
  unfold loadPrgrom prgSize
  rw [Nat.mul_comm 16384]
  cases s.1.has.prgram <;> rfl

theorem loadChrrom_chrrom :
    (loadChrrom fresh s).1.chrrom = if s.1.has.chrram then s.1.chrrom
      else loaded (chrSize s.1.header) fresh.chr s.2.rest := by
  unfold loadChrrom chrSize
  rw [Nat.mul_comm 8192]
  cases s.1.has.chrram <;> rfl

/-- The reads leave what the header has set alone. -/
theorem load_fields :
    (loadChrrom fresh (loadPrgrom fresh (loadTrainer s))).1.mapper = s.1.mapper ∧
      (loadChrrom fresh (loadPrgrom fresh (loadTrainer s))).1.prgramSize = s.1.prgramSize ∧
      (loadChrrom fresh (loadPrgrom fresh (loadTrainer s))).1.has = s.1.has := by
  have htrainer : (loadTrainer s).1.mapper = s.1.mapper ∧
      (loadTrainer s).1.prgramSize = s.1.prgramSize ∧ (loadTrainer s).1.has = s.1.has := by
    unfold loadTrainer
    split <;> exact ⟨rfl, rfl, rfl⟩
  have hprg (t : Cartridge × File) : (loadPrgrom fresh t).1.mapper = t.1.mapper ∧
      (loadPrgrom fresh t).1.prgramSize = t.1.prgramSize ∧
      (loadPrgrom fresh t).1.has = t.1.has := by
    unfold loadPrgrom
    split <;> exact ⟨rfl, rfl, rfl⟩
  have hchr (t : Cartridge × File) : (loadChrrom fresh t).1.mapper = t.1.mapper ∧
      (loadChrrom fresh t).1.prgramSize = t.1.prgramSize ∧
      (loadChrrom fresh t).1.has = t.1.has := by
    unfold loadChrrom
    split <;> exact ⟨rfl, rfl, rfl⟩
  obtain ⟨hm, hp, hh⟩ := htrainer
  obtain ⟨hm', hp', hh'⟩ := hprg (loadTrainer s)
  obtain ⟨hm'', hp'', hh''⟩ := hchr (loadPrgrom fresh (loadTrainer s))
  exact ⟨hm''.trans (hm'.trans hm), hp''.trans (hp'.trans hp), hh''.trans (hh'.trans hh)⟩

end Reads

/-! ### What an accepted file leaves -/

/-- The cartridge is taken to have CHR RAM: `has.chrram` is never cleared. -/
def TakesChrram (c : Cartridge) (header : ℕ → Uint8) : Prop :=
  header 5 = 0 ∨ c.has.chrram = true

instance (c : Cartridge) (header : ℕ → Uint8) : Decidable (c.TakesChrram header) :=
  inferInstanceAs (Decidable (_ ∨ _))

/-- Where the CHR ROM is read from. -/
def chrOffset (header : ℕ → Uint8) : ℕ :=
  prgStart header + if (header 10).getLsbD 4 then 0 else prgSize header

/-- The cartridge `c'` that a parse of `f` makes of `c`, with this header. -/
structure Parsed (fresh : FreshRom) (header : ℕ → Uint8) (f : File) (c c' : Cartridge) : Prop where
  prgrom : c'.prgrom = if (header 10).getLsbD 4 then c.prgrom
    else loaded (prgSize header) fresh.prg (f.rest.drop (prgStart header))
  chrrom : c'.chrrom = if c.TakesChrram header then c.chrrom
    else loaded (chrSize header) fresh.chr (f.rest.drop (chrOffset header))
  mapper : c'.mapper = (INes.mapper header).setWidth 16
  ntMirroring : c'.ntMirroring = if (header 6).getLsbD 0 then .vert else .horz
  prgramSize : c'.prgramSize = (header 8).setWidth 32
  has : c'.has = ⟨(header 10).getLsbD 4, decide (c.TakesChrram header), (header 6).getLsbD 1,
    (header 6).getLsbD 2⟩

/-- Only the sixteen bytes of the header count. -/
theorem Parsed.congr {fresh : FreshRom} {header header' : ℕ → Uint8} {f : File} {c c' : Cartridge}
    (h : Parsed fresh header f c c') (heq : ∀ i < 16, header i = header' i) :
    Parsed fresh header' f c c' := by
  have h4 := heq 4 (by decide)
  have h5 := heq 5 (by decide)
  have h6 := heq 6 (by decide)
  have h7 := heq 7 (by decide)
  have h8 := heq 8 (by decide)
  have h10 := heq 10 (by decide)
  have hstart : prgStart header = prgStart header' := by simp only [prgStart, trainerSize, h6]
  have hprg : prgSize header = prgSize header' := by simp only [prgSize, h4]
  have hchr : chrSize header = chrSize header' := by simp only [chrSize, h5]
  have hmapper : INes.mapper header = INes.mapper header' := by simp only [INes.mapper, h6, h7]
  have hoffset : chrOffset header = chrOffset header' := by
    simp only [chrOffset, hstart, hprg, h10]
  have htakes : c.TakesChrram header ↔ c.TakesChrram header' := by simp only [TakesChrram, h5]
  obtain ⟨h₁, h₂, h₃, h₄, h₅, h₆⟩ := h
  simp only [h6, h8, h10, hstart, hprg, hchr, hmapper, hoffset, htakes] at h₁ h₂ h₃ h₄ h₅ h₆
  exact ⟨h₁, h₂, h₃, h₄, h₅, h₆⟩

theorem and_one_beq_zero : ∀ v : Uint8, (v &&& 1 == 0) = !v.getLsbD 0 := by decide

theorem high_nibble : ∀ v : Uint8, (v &&& 0xF0) >>> 4 = v >>> 4 := by decide

/-- The fields the header sets. -/
theorem parseInes_parseCommon_fields (c : Cartridge) :
    (parseInes (parseCommon c)).mapper = (INes.mapper c.header).setWidth 16 ∧
      (parseInes (parseCommon c)).ntMirroring =
        (if (c.header 6).getLsbD 0 then .vert else .horz) ∧
      (parseInes (parseCommon c)).has =
        ⟨(c.header 10).getLsbD 4, decide (c.TakesChrram c.header), (c.header 6).getLsbD 1,
          (c.header 6).getLsbD 2⟩ := by
  refine ⟨?_, ?_, ?_⟩
  · show ((c.header 6 &&& 0xF0) >>> 4 ||| c.header 7 &&& 0xF0).setWidth 16 = _
    rw [high_nibble]
    rfl
  · show (if c.header 6 &&& 1 == 0 then Mirroring.horz else .vert) = _
    rw [and_one_beq_zero]
    cases (c.header 6).getLsbD 0 <;> rfl
  · have hprgram : truthy (c.header 10 &&& 0x10) = (c.header 10).getLsbD 4 :=
      truthy_and_twoPow _ (by decide : 4 < 8)
    have hbattery : truthy (c.header 6 &&& 2) = (c.header 6).getLsbD 1 :=
      truthy_and_twoPow _ (by decide : 1 < 8)
    have htrainer : truthy (c.header 6 &&& 4) = (c.header 6).getLsbD 2 :=
      truthy_and_twoPow _ (by decide : 2 < 8)
    have hchrram : (if c.header 5 == 0 then true else c.has.chrram) =
        decide (c.TakesChrram c.header) := by
      rw [Bool.eq_iff_iff, decide_eq_true_iff]
      simp [TakesChrram]
    rw [← hprgram, ← hbattery, ← htrainer, ← hchrram]
    rfl

/-- The cartridge when the header has been read. -/
def headed (f : File) (c : Cartridge) : Cartridge :=
  { c with name := f.filename, header := c.readHeader f, format := "iNES" }

/-- **Parsing.** What a parse of an accepted file leaves. -/
theorem parse_parsed {fresh : FreshRom} {f : File} {c : Cartridge}
    (h : (parse fresh f c).1 = true) :
    Parsed fresh (c.readHeader f) f c (parse fresh f c).2.1 := by
  obtain ⟨hmapper, hmirror, hhas⟩ := parseInes_parseCommon_fields (c.headed f)
  set s : Cartridge × File := (parseInes (parseCommon (c.headed f)), (f.bread headerLen).2)
  have hparse : (parse fresh f c).2.1 = (loadChrrom fresh (loadPrgrom fresh (loadTrainer s))).1 :=
    congrArg Prod.fst (parse_of_accepted h)
  have hheader : s.1.header = c.readHeader f := rfl
  have hprg : s.1.prgrom = c.prgrom := rfl
  have hchr : s.1.chrrom = c.chrrom := rfl
  have hprgram : s.1.has.prgram = (c.readHeader f 10).getLsbD 4 := congrArg Has.prgram hhas
  have hchrram : s.1.has.chrram = decide (c.TakesChrram (c.readHeader f)) :=
    congrArg Has.chrram hhas
  have htrainer : s.1.has.trainer = (c.readHeader f 6).getLsbD 2 := congrArg Has.trainer hhas
  obtain ⟨htp, htc, hth, hthas⟩ := loadTrainer_roms s
  obtain ⟨hpc, hph, hphas⟩ := loadPrgrom_others fresh (loadTrainer s)
  obtain ⟨hm, hp, hh⟩ := load_fields fresh s
  have hrest : (loadTrainer s).2.rest = f.rest.drop (prgStart (c.readHeader f)) := by
    rw [loadTrainer_rest, htrainer, show s.2.rest = f.rest.drop 16 from rfl, List.drop_drop]
    rfl
  rw [hparse]
  constructor
  · rw [loadChrrom_prgrom, loadPrgrom_prgrom, htp, hth, hthas, hrest, hheader, hprg, hprgram]
  · rw [loadChrrom_chrrom, loadPrgrom_rest, hpc, hph, hphas, htc, hth, hthas, hrest, hheader,
      hchr, hprgram, hchrram, List.drop_drop]
    simp only [decide_eq_true_eq]
    rfl
  · exact hm.trans hmapper
  · exact (load_ntMirroring fresh s).trans hmirror
  · exact hp
  · exact hh.trans hhas

/-! ### A new cartridge -/

/-- A file with a whole header overwrites the buffer. -/
theorem readHeader_eq (c : Cartridge) {f : File} (hlen : 16 ≤ f.rest.length) {i : ℕ}
    (hi : i < 16) : c.readHeader f i = f.header i := by
  have hlt : i < f.rest.length := by omega
  show (f.rest.take 16).getD i (c.header i) = f.rest.getD i 0
  simp [List.getD_eq_getElem?_getD, List.getElem?_take_of_lt hi, List.getElem?_eq_getElem hlt]

theorem parse_parsed_file {fresh : FreshRom} {f : File} {c : Cartridge}
    (h : (parse fresh f c).1 = true) (hlen : 16 ≤ f.rest.length) :
    Parsed fresh f.header f c (parse fresh f c).2.1 :=
  (parse_parsed h).congr fun _ hi => readHeader_eq c hlen hi

/-- A cartridge as it is constructed: only the two buffers are not initialised. -/
structure New (c : Cartridge) : Prop where
  prgrom : c.prgrom.size = 0
  chrrom : c.chrrom.size = 0
  mapper : c.mapper = 0
  prgramSize : c.prgramSize = 0
  ntMirroring : c.ntMirroring = .vert
  has : c.has = {}

/-- The cartridge holds what the file has at the places its header announces. -/
structure Holds (f : File) (c : Cartridge) : Prop where
  prgrom : c.prgrom.toList = (f.rest.drop (prgStart f.header)).take (prgSize f.header)
  chrrom : c.chrrom.toList = (f.rest.drop (chrStart f.header)).take (chrSize f.header)
  mapper : c.mapper = (INes.mapper f.header).setWidth 16
  ntMirroring : c.ntMirroring = .vert ↔ (f.header 6).getLsbD 0 = true

section Holds

variable {f : File}

theorem length_of_complete (h : f.Complete) : 16 ≤ f.rest.length := by
  unfold File.Complete INes.size chrStart prgStart at h
  omega

/-- An array without elements. -/
theorem toList_of_size {a : HeapArray Uint8} (h : a.size = 0) : a.toList = [] := by
  unfold HeapArray.toList
  rw [h]
  rfl

/-- **Loading.** What a new cartridge holds after an accepted file with all its data is what the
header announces, unless the header has PRG RAM and PRG banks: then the banks are not read. -/
theorem parse_holds_iff (fresh : FreshRom) {f : File} {c : Cartridge} (hnew : New c)
    (hcomplete : f.Complete) (h : (parse fresh f c).1 = true) :
    Holds f (parse fresh f c).2.1 ↔ (f.header 10).getLsbD 4 = false ∨ f.header 4 = 0 := by
  have hp := parse_parsed_file h (length_of_complete hcomplete)
  have hroom : chrStart f.header + chrSize f.header ≤ f.rest.length := hcomplete
  constructor
  · intro hholds
    by_contra hcond
    rw [not_or, Bool.not_eq_false] at hcond
    obtain ⟨hprgram, h4⟩ := hcond
    have hempty : (parse fresh f c).2.1.prgrom.toList = [] := by
      rw [hp.prgrom, if_pos hprgram]
      exact toList_of_size hnew.prgrom
    have hlen := congrArg List.length (hempty.symm.trans hholds.prgrom)
    have hpos : 0 < prgSize f.header := by
      unfold prgSize
      have : (f.header 4).toNat ≠ 0 := fun h0 => h4 (BitVec.eq_of_toNat_eq h0)
      omega
    unfold chrStart at hroom
    rw [List.length_nil, List.length_take, List.length_drop] at hlen
    omega
  · intro hcond
    have hskip : (f.header 10).getLsbD 4 = true → prgSize f.header = 0 := by
      intro hprgram
      have h4 := hcond.resolve_left (by simp [hprgram])
      simp [prgSize, h4]
    have hoffset : chrOffset f.header = chrStart f.header := by
      unfold chrOffset chrStart
      split
      · next hprgram => rw [hskip hprgram]
      · rfl
    have hram : c.TakesChrram f.header → chrSize f.header = 0 := by
      rintro (h5 | hc)
      · simp [chrSize, h5]
      · rw [hnew.has] at hc
        cases hc
    refine ⟨?_, ?_, hp.mapper, ?_⟩
    · rw [hp.prgrom]
      split
      · next hprgram => rw [toList_of_size hnew.prgrom, hskip hprgram, List.take_zero]
      · refine toList_loaded ?_
        rw [List.length_drop]
        unfold chrStart at hroom
        omega
    · rw [hp.chrrom, hoffset]
      split
      · next htakes => rw [toList_of_size hnew.chrrom, hram htakes, List.take_zero]
      · refine toList_loaded ?_
        rw [List.length_drop]
        omega
    · rw [hp.ntMirroring]
      cases (f.header 6).getLsbD 0 <;> decide

end Holds

/-- A file with these header bytes 4 to 10 and this data. -/
def inesFile (bytes data : List Uint8) : File where
  isOpen := true
  filename := "rom.nes"
  rest := [0x4E, 0x45, 0x53, 0x1A] ++ bytes ++ List.replicate (12 - bytes.length) 0 ++ data

theorem length_inesFile {bytes data : List Uint8} (h : bytes.length ≤ 12) :
    (inesFile bytes data).rest.length = 16 + data.length := by
  simp only [inesFile, List.length_append, List.length_replicate, List.length_cons, List.length_nil]
  omega

theorem new_blank : New blank := ⟨rfl, rfl, rfl, rfl, rfl, rfl⟩

/-- A trainer, no PRG bank and one CHR bank. -/
def trainerFile : File := inesFile [0, 1, 4] (List.replicate 512 1 ++ List.replicate 8192 2)

theorem complete_trainerFile : trainerFile.Complete := by
  unfold File.Complete trainerFile
  rw [length_inesFile (by decide), List.length_append, List.length_replicate, List.length_replicate]
  exact Nat.le_refl _

theorem parse_holds_trainer :
    Holds trainerFile (parse zeroRom trainerFile blank).2.1 :=
  (parse_holds_iff zeroRom new_blank complete_trainerFile rfl).mpr (Or.inl rfl)

/-- One PRG bank of ones, with PRG RAM in byte 10. -/
def prgramFile : File := inesFile [1, 0, 0, 0, 0, 0, 0x10] (List.replicate 16384 1)

/-- The bank is not read: the new cartridge has no PRG ROM. -/
theorem not_parse_holds_prgram :
    prgramFile.Complete ∧ (parse zeroRom prgramFile blank).1 = true ∧
      (parse zeroRom prgramFile blank).2.1.prgrom.size = 0 ∧
      ¬Holds prgramFile (parse zeroRom prgramFile blank).2.1 := by
  have hcomplete : prgramFile.Complete := by
    unfold File.Complete prgramFile
    rw [length_inesFile (by decide), List.length_replicate]
    exact Nat.le_refl _
  refine ⟨hcomplete, rfl, rfl, ?_⟩
  intro h
  have hlen := congrArg List.length h.prgrom
  rw [List.length_take, List.length_drop, show prgramFile.rest.length = 16 + 16384 from by
    rw [prgramFile, length_inesFile (by decide), List.length_replicate]] at hlen
  exact absurd hlen (by decide)

/-! ### Truncated files -/

/-- What `parse` asks of a file: it is open, and the header buffer has the mark of an iNES file and
not that of NES 2.0. -/
def Accepted (f : File) (c : Cartridge) : Prop :=
  f.isOpen = true ∧ isInes (c.readHeader f) = true ∧ isNes20 (c.readHeader f) = false

theorem parse_accepts_iff (fresh : FreshRom) (f : File) (c : Cartridge) :
    (parse fresh f c).1 = true ↔ Accepted f c := by
  unfold Accepted parse
  cases f.isOpen with
  | false => simp
  | true =>
    cases hines : isInes (c.readHeader f) with
    | false => simp [hines]
    | true => cases hnes : isNes20 (c.readHeader f) <;> simp [hines, hnes]

/-- A file that is rejected is not read beyond its header. -/
theorem parse_rejected {f : File} {c : Cartridge} (h : ¬Accepted f c) :
    ∃ r, ∀ fresh, parse fresh f c = (false, r) := by
  unfold Accepted at h
  unfold parse
  cases hopen : f.isOpen with
  | false => exact ⟨_, fun _ => rfl⟩
  | true =>
    cases hines : isInes (c.readHeader f) with
    | false => exact ⟨_, fun _ => by simp [hines]; rfl⟩
    | true =>
      have hnes : isNes20 (c.readHeader f) = true := by simpa [hopen, hines] using h
      exact ⟨_, fun _ => by simp [hines, hnes]; rfl⟩

/-- What the buses read does not depend on what the allocated memory held. -/
def Settled (f : File) (c : Cartridge) : Prop :=
  ∀ fresh fresh' : FreshRom, ∀ addr : Uint16,
    (0x8000 ≤ addr.toNat →
      (parse fresh f c).2.1.readPrgrom addr = (parse fresh' f c).2.1.readPrgrom addr) ∧
    (addr.toNat < 0x2000 →
      (parse fresh f c).2.1.readChrrom addr = (parse fresh' f c).2.1.readChrrom addr)

/-- `parse` accepts the file only with all its data; without, it rejects it and no byte that was
never written can be read. -/
structure ChecksLength (f : File) (c : Cartridge) : Prop where
  accepted : ∀ fresh, (parse fresh f c).1 = true → f.Complete
  truncated : ¬f.Complete → (∀ fresh, (parse fresh f c).1 = false) ∧ Settled f c

theorem settled_of_not_accepted {f : File} {c : Cartridge} (h : ¬Accepted f c) : Settled f c := by
  obtain ⟨r, hr⟩ := parse_rejected h
  intro fresh fresh' addr
  rw [hr fresh, hr fresh']
  exact ⟨fun _ => rfl, fun _ => rfl⟩

/-- **Truncated files.** The length of a file is checked exactly if there is nothing to check: the
file has all its data, or it is not one `parse` accepts by its header. -/
theorem checksLength_iff (f : File) (c : Cartridge) :
    ChecksLength f c ↔ f.Complete ∨ ¬Accepted f c := by
  constructor
  · intro h
    by_cases hacc : Accepted f c
    · exact Or.inl (h.accepted zeroRom ((parse_accepts_iff zeroRom f c).mpr hacc))
    · exact Or.inr hacc
  · intro h
    constructor
    · intro fresh hacc
      exact h.resolve_right (not_not_intro ((parse_accepts_iff fresh f c).mp hacc))
    · intro hcomplete
      have hrej := h.resolve_left hcomplete
      refine ⟨?_, settled_of_not_accepted hrej⟩
      intro fresh
      rw [← Bool.not_eq_true, parse_accepts_iff]
      exact hrej

/-- A header that announces two PRG banks and a CHR bank, and no data. -/
def headerFile : File := inesFile [2, 1] []

/-- It is accepted, and the ROM reads as the memory that was allocated for it. -/
theorem not_checksLength_header :
    (parse zeroRom headerFile blank).1 = true ∧ ¬headerFile.Complete ∧
      (parse ⟨fun _ => 0xAB, fun _ => 0⟩ headerFile blank).2.1.readPrgrom 0x8000 = 0xAB ∧
      ¬ChecksLength headerFile blank := by
  have hshort : ¬headerFile.Complete := by
    unfold File.Complete headerFile
    decide
  refine ⟨rfl, hshort, by decide, ?_⟩
  intro h
  exact hshort (h.accepted zeroRom rfl)

/-! ### Two parses of one file -/

/-- Equal in all that a parse is for. -/
structure SameRom (c c' : Cartridge) : Prop where
  prgrom : c.prgrom.toList = c'.prgrom.toList
  chrrom : c.chrrom.toList = c'.chrrom.toList
  mapper : c.mapper = c'.mapper
  ntMirroring : c.ntMirroring = c'.ntMirroring
  prgramSize : c.prgramSize = c'.prgramSize
  has : c.has = c'.has

/-- The file alone decides what the two cartridges hold after parsing it, whatever the memory
allocated by each held. -/
def Determined (f : File) (c c' : Cartridge) : Prop :=
  ∀ fresh fresh' : FreshRom, SameRom (parse fresh f c).2.1 (parse fresh' f c').2.1

/-- What a parse takes from elsewhere than the file is the same, or not used: the header bytes
behind the end of the file, the flag for CHR RAM, the ROMs that are not replaced and the memory
behind the data of the file. -/
structure SameRest (f : File) (c c' : Cartridge) (header header' : ℕ → Uint8) : Prop where
  byte6 : ∀ i < 8, i ≠ 3 → (header 6).getLsbD i = (header' 6).getLsbD i
  byte7 : ∀ i < 8, 4 ≤ i → (header 7).getLsbD i = (header' 7).getLsbD i
  byte8 : header 8 = header' 8
  byte10 : (header 10).getLsbD 4 = (header' 10).getLsbD 4
  chrram : c.TakesChrram header ↔ c'.TakesChrram header'
  prgrom : if (header 10).getLsbD 4 then c.prgrom.toList = c'.prgrom.toList
    else header 4 = header' 4 ∧ prgSize header ≤ f.rest.length - prgStart header
  chrrom : if c.TakesChrram header then c.chrrom.toList = c'.chrrom.toList
    else header 5 = header' 5 ∧ chrSize header ≤ f.rest.length - chrOffset header

/-- An array that is read from the file is determined if the file has all of it. -/
theorem loaded_determined_iff {n n' : ℕ} {rest : List Uint8} :
    (∀ fresh fresh', (loaded n fresh rest).toList = (loaded n' fresh' rest).toList) ↔
      n = n' ∧ n ≤ rest.length := by
  have hlength (m : ℕ) (fresh : ℕ → Uint8) : (loaded m fresh rest).toList.length = m := by
    simp [HeapArray.toList, loaded]
  constructor
  · intro h
    have hn : n = n' := by
      rw [← hlength n fun _ => 0, h _ (fun _ => 0), hlength]
    refine ⟨hn, ?_⟩
    by_contra hshort
    have hlast (fresh : ℕ → Uint8) :
        (loaded n fresh rest).toList[n - 1]? = some (fresh (n - 1)) := by
      have hlt : n - 1 < n := by omega
      have hget : (loaded n fresh rest).get (n - 1) = fresh (n - 1) := by
        rw [get_loaded hlt, List.getD_eq_getElem?_getD, List.getElem?_eq_none (by omega)]
        rfl
      simp [HeapArray.toList, loaded, hlt] at hget ⊢
      exact hget
    subst hn
    have hzero := hlast fun _ => 0
    rw [h _ (fun _ => 1), hlast fun _ => 1] at hzero
    cases hzero
  · rintro ⟨rfl, hle⟩ fresh fresh'
    rw [toList_loaded hle, toList_loaded hle]

/-- So is one that may be kept, whichever part of the fresh memory it is given. -/
theorem rom_determined_iff {part : FreshRom → ℕ → Uint8} (hpart : Function.Surjective part)
    (p : Prop) [Decidable p] (old old' : HeapArray Uint8) (n n' : ℕ) (rest : List Uint8) :
    (∀ fresh fresh', (if p then old else loaded n (part fresh) rest).toList =
        (if p then old' else loaded n' (part fresh') rest).toList) ↔
      if p then old.toList = old'.toList else n = n' ∧ n ≤ rest.length := by
  by_cases hp : p
  · have hfresh : Nonempty FreshRom := ⟨zeroRom⟩
    simp only [if_pos hp, forall_const]
  · simp only [if_neg hp]
    rw [← loaded_determined_iff, hpart.forall₂]

section Headers

variable {header header' : ℕ → Uint8}

theorem prgStart_eq (h : (header 6).getLsbD 2 = (header' 6).getLsbD 2) :
    prgStart header = prgStart header' := by
  unfold prgStart trainerSize
  rw [h]

theorem chrOffset_eq (h6 : (header 6).getLsbD 2 = (header' 6).getLsbD 2)
    (h10 : (header 10).getLsbD 4 = (header' 10).getLsbD 4)
    (h4 : (header 10).getLsbD 4 = false → header 4 = header' 4) :
    chrOffset header = chrOffset header' := by
  unfold chrOffset
  rw [prgStart_eq h6, ← h10]
  cases hbit : (header 10).getLsbD 4 with
  | true => rfl
  | false => simp [prgSize, h4 hbit]

theorem mul_toNat_inj {m : ℕ} (hm : 0 < m) {v v' : Uint8} :
    m * v.toNat = m * v'.toNat ↔ v = v' := by
  rw [Nat.mul_right_inj hm.ne']
  exact BitVec.toNat_inj

/-- The bits of the mapper number. -/
theorem getLsbD_mapper (header : ℕ → Uint8) {i : ℕ} (hi : i < 8) :
    (INes.mapper header).getLsbD i =
      if i < 4 then (header 6).getLsbD (i + 4) else (header 7).getLsbD i := by
  have hmask : ∀ j < 8, (0xF0 : Uint8).getLsbD j = !decide (j < 4) := by decide
  unfold INes.mapper
  rw [BitVec.getLsbD_or, BitVec.getLsbD_and, BitVec.getLsbD_ushiftRight, hmask i hi,
    Nat.add_comm 4]
  split
  · next h4 => simp [h4]
  · next h4 =>
    have hshift : (header 6).getLsbD (i + 4) = false := BitVec.getLsbD_of_ge _ _ (by omega)
    simp [h4, hshift]

theorem mapper_eq_iff : INes.mapper header = INes.mapper header' ↔
    (∀ i < 8, 4 ≤ i → (header 6).getLsbD i = (header' 6).getLsbD i) ∧
      ∀ i < 8, 4 ≤ i → (header 7).getLsbD i = (header' 7).getLsbD i := by
  constructor
  · intro h
    constructor
    · intro i hi h4
      have hlow (hd : ℕ → Uint8) : (INes.mapper hd).getLsbD (i - 4) = (hd 6).getLsbD i := by
        rw [getLsbD_mapper _ (by omega), if_pos (by omega), Nat.sub_add_cancel h4]
      rw [← hlow header, ← hlow header', h]
    · intro i hi h4
      have hhigh (hd : ℕ → Uint8) : (INes.mapper hd).getLsbD i = (hd 7).getLsbD i := by
        rw [getLsbD_mapper _ hi, if_neg (by omega)]
      rw [← hhigh header, ← hhigh header', h]
  · rintro ⟨h6, h7⟩
    apply BitVec.eq_of_getLsbD_eq
    intro i hi
    rw [getLsbD_mapper _ hi, getLsbD_mapper _ hi]
    split
    · exact h6 _ (by omega) (by omega)
    · exact h7 i hi (by omega)

/-- A wider word has the same bits. -/
theorem setWidth_inj {w : ℕ} (hw : 8 ≤ w) {v v' : Uint8} :
    v.setWidth w = v'.setWidth w ↔ v = v' := by
  refine ⟨fun h => ?_, congrArg _⟩
  have hnat := congrArg BitVec.toNat h
  have hlt := v.isLt
  have hlt' := v'.isLt
  have hpow : 2 ^ 8 ≤ 2 ^ w := Nat.pow_le_pow_right (by decide) hw
  rw [BitVec.toNat_setWidth, BitVec.toNat_setWidth, Nat.mod_eq_of_lt (by omega),
    Nat.mod_eq_of_lt (by omega)] at hnat
  exact BitVec.eq_of_toNat_eq hnat

theorem mirroring_eq_iff {b b' : Bool} :
    ((if b then .vert else .horz : Mirroring) = if b' then .vert else .horz) ↔ b = b' := by
  cases b <;> cases b' <;> decide

end Headers

section Determined

variable {f : File} {c c' : Cartridge}

theorem parsed_of_accepted (h : Accepted f c) (fresh : FreshRom) :
    Parsed fresh (c.readHeader f) f c (parse fresh f c).2.1 :=
  parse_parsed ((parse_accepts_iff fresh f c).mpr h)

section Parsed

variable {header header' : ℕ → Uint8} {r r' : FreshRom → Cartridge}
  (hp : ∀ fresh, Parsed fresh header f c (r fresh))
  (hp' : ∀ fresh, Parsed fresh header' f c' (r' fresh))
include hp hp'

/-- The members that come from the header. -/
theorem fields_eq_iff (fresh fresh' : FreshRom) :
    ((r fresh).mapper = (r' fresh').mapper ∧ (r fresh).ntMirroring = (r' fresh').ntMirroring ∧
        (r fresh).prgramSize = (r' fresh').prgramSize ∧ (r fresh).has = (r' fresh').has) ↔
      (∀ i < 8, i ≠ 3 → (header 6).getLsbD i = (header' 6).getLsbD i) ∧
        (∀ i < 8, 4 ≤ i → (header 7).getLsbD i = (header' 7).getLsbD i) ∧ header 8 = header' 8 ∧
        (header 10).getLsbD 4 = (header' 10).getLsbD 4 ∧
        (c.TakesChrram header ↔ c'.TakesChrram header') := by
  rw [(hp fresh).mapper, (hp' fresh').mapper, (hp fresh).ntMirroring, (hp' fresh').ntMirroring,
    (hp fresh).prgramSize, (hp' fresh').prgramSize, (hp fresh).has, (hp' fresh').has,
    setWidth_inj (by decide), setWidth_inj (by decide), mapper_eq_iff, mirroring_eq_iff,
    Has.mk.injEq, decide_eq_decide]
  constructor
  · rintro ⟨⟨hhigh, h7⟩, h60, h8, h10, hram, h61, h62⟩
    refine ⟨?_, h7, h8, h10, hram⟩
    intro i hi hne
    rcases Nat.lt_or_ge i 4 with h4 | h4
    · interval_cases i
      · exact h60
      · exact h61
      · exact h62
      · exact absurd rfl hne
    · exact hhigh i hi h4
  · rintro ⟨h6, h7, h8, h10, hram⟩
    exact ⟨⟨fun i hi h4 => h6 i hi (by omega), h7⟩, h6 0 (by decide) (by decide), h8, h10, hram,
      h6 1 (by decide) (by decide), h6 2 (by decide) (by decide)⟩

theorem prgrom_determined_iff (h6 : (header 6).getLsbD 2 = (header' 6).getLsbD 2)
    (h10 : (header 10).getLsbD 4 = (header' 10).getLsbD 4) :
    (∀ fresh fresh', (r fresh).prgrom.toList = (r' fresh').prgrom.toList) ↔
      if (header 10).getLsbD 4 then c.prgrom.toList = c'.prgrom.toList
      else header 4 = header' 4 ∧ prgSize header ≤ f.rest.length - prgStart header := by
  have hpart : Function.Surjective FreshRom.prg := fun v => ⟨⟨v, v⟩, rfl⟩
  have hrom (fresh : FreshRom) : (r' fresh).prgrom = if (header 10).getLsbD 4 then c'.prgrom
      else loaded (prgSize header') fresh.prg (f.rest.drop (prgStart header)) := by
    rw [(hp' fresh).prgrom, ← h10, ← prgStart_eq h6]
  simp only [fun fresh => (hp fresh).prgrom, hrom]
  rw [rom_determined_iff hpart, List.length_drop, prgSize, prgSize, mul_toNat_inj (by decide)]

theorem chrrom_determined_iff (hoffset : chrOffset header = chrOffset header')
    (hram : c.TakesChrram header ↔ c'.TakesChrram header') :
    (∀ fresh fresh', (r fresh).chrrom.toList = (r' fresh').chrrom.toList) ↔
      if c.TakesChrram header then c.chrrom.toList = c'.chrrom.toList
      else header 5 = header' 5 ∧ chrSize header ≤ f.rest.length - chrOffset header := by
  have hpart : Function.Surjective FreshRom.chr := fun v => ⟨⟨v, v⟩, rfl⟩
  have hrom (fresh : FreshRom) : (r' fresh).chrrom = if c.TakesChrram header then c'.chrrom
      else loaded (chrSize header') fresh.chr (f.rest.drop (chrOffset header)) := by
    rw [(hp' fresh).chrrom, if_congr hram rfl rfl, ← hoffset]
  simp only [fun fresh => (hp fresh).chrrom, hrom]
  rw [rom_determined_iff hpart, List.length_drop, chrSize, chrSize, mul_toNat_inj (by decide)]

end Parsed

/-- **Two parses.** The file alone decides what two cartridges hold after both accept it exactly
if all that a parse takes from elsewhere is the same for both. -/
theorem determined_iff (h : Accepted f c) (h' : Accepted f c') :
    Determined f c c' ↔ SameRest f c c' (c.readHeader f) (c'.readHeader f) := by
  have hp := parsed_of_accepted h
  have hp' := parsed_of_accepted h'
  -- the CHR data is where the PRG data ends, if that is read
  have hoffset (h6 : (c.readHeader f 6).getLsbD 2 = (c'.readHeader f 6).getLsbD 2)
      (h10 : (c.readHeader f 10).getLsbD 4 = (c'.readHeader f 10).getLsbD 4)
      (hprg : if (c.readHeader f 10).getLsbD 4 then c.prgrom.toList = c'.prgrom.toList
        else c.readHeader f 4 = c'.readHeader f 4 ∧
          prgSize (c.readHeader f) ≤ f.rest.length - prgStart (c.readHeader f)) :
      chrOffset (c.readHeader f) = chrOffset (c'.readHeader f) := by
    refine chrOffset_eq h6 h10 ?_
    intro hbit
    rw [hbit] at hprg
    exact hprg.1
  constructor
  · intro hd
    have hz := hd zeroRom zeroRom
    obtain ⟨h6, h7, h8, h10, hram⟩ := (fields_eq_iff hp hp' zeroRom zeroRom).mp
      ⟨hz.mapper, hz.ntMirroring, hz.prgramSize, hz.has⟩
    have h62 := h6 2 (by decide) (by decide)
    have hprg := (prgrom_determined_iff hp hp' h62 h10).mp fun fr fr' => (hd fr fr').prgrom
    have hchr := (chrrom_determined_iff hp hp' (hoffset h62 h10 hprg) hram).mp
      fun fr fr' => (hd fr fr').chrrom
    exact ⟨h6, h7, h8, h10, hram, hprg, hchr⟩
  · intro hs fresh fresh'
    have h62 := hs.byte6 2 (by decide) (by decide)
    obtain ⟨hmapper, hmirror, hsize, hhas⟩ := (fields_eq_iff hp hp' fresh fresh').mpr
      ⟨hs.byte6, hs.byte7, hs.byte8, hs.byte10, hs.chrram⟩
    exact ⟨(prgrom_determined_iff hp hp' h62 hs.byte10).mpr hs.prgrom fresh fresh',
      (chrrom_determined_iff hp hp' (hoffset h62 hs.byte10 hs.prgrom) hs.chrram).mpr hs.chrrom
        fresh fresh', hmapper, hmirror, hsize, hhas⟩

/-- A cartridge that has parsed the file before. -/
theorem determined_twice :
    Determined trainerFile blank (parse zeroRom trainerFile blank).2.1 := by
  refine (determined_iff ⟨rfl, rfl, rfl⟩ ⟨rfl, rfl, rfl⟩).mpr
    ⟨by decide, by decide, rfl, rfl, by decide, ⟨rfl, Nat.zero_le _⟩, ?_⟩
  rw [if_neg (by decide)]
  refine ⟨rfl, ?_⟩
  rw [trainerFile, length_inesFile (by decide), List.length_append, List.length_replicate,
    List.length_replicate]
  exact Nat.le_refl _

/-- One CHR bank and nothing else. -/
def chrFile : File := inesFile [0, 1] (List.replicate 8192 2)

/-- A cartridge that has parsed a file without CHR banks. -/
def chrramCartridge : Cartridge := (parse zeroRom (inesFile [] []) blank).2.1

/-- It keeps the flag for CHR RAM, and the bank is not read. -/
theorem not_determined_chrram :
    Accepted chrFile blank ∧ Accepted chrFile chrramCartridge ∧
      ¬Determined chrFile blank chrramCartridge := by
  refine ⟨⟨rfl, rfl, rfl⟩, ⟨rfl, rfl, rfl⟩, ?_⟩
  intro h
  have hlen := congrArg List.length (h zeroRom zeroRom).chrrom
  rw [HeapArray.length_toList, HeapArray.length_toList] at hlen
  exact absurd hlen (by decide)

end Determined

/-! ### The window -/

/-- What an address of the window shows of `k` banks: of the last two, or of the only one. -/
def windowIndex (k : ℕ) (addr : Uint16) : ℕ :=
  if k = 1 then (addr.toNat - 0x8000) % 16384 else 16384 * k - 0x8000 + (addr.toNat - 0x8000)

/-- The address shows this place of the ROM, whatever the ROM holds. -/
def Shows (k : ℕ) (addr : Uint16) (i : ℕ) : Prop :=
  ∀ c : Cartridge, c.prgrom.size = 16384 * k → c.readPrgrom addr = c.prgrom.get i

theorem shows_iff {k i : ℕ} {addr : Uint16} :
    Shows k addr i ↔ i = (16384 * k + addr.toNat) % 65536 := by
  constructor
  · intro h
    by_contra hne
    have hread := h { blank with prgrom := ⟨16384 * k, fun j => if j = i then 1 else 0⟩ } rfl
    unfold readPrgrom at hread
    rw [toNat_prgIndex] at hread
    have hzero : (if (16384 * k + addr.toNat) % 65536 = i then 1 else 0 : Uint8) =
      if i = i then 1 else 0 := hread
    rw [if_neg (Ne.symm hne), if_pos rfl] at hzero
    cases hzero
  · rintro rfl c hc
    unfold readPrgrom
    rw [toNat_prgIndex, hc]

/-- **The window.** With one bank an address shows the right place exactly in the upper half of the
window, with more exactly if size and address together are below `0x20000`: everywhere for up to
four banks. -/
theorem shows_windowIndex_iff {k : ℕ} (hk : 1 ≤ k) {addr : Uint16} (haddr : 0x8000 ≤ addr.toNat) :
    Shows k addr (windowIndex k addr) ↔
      if k = 1 then 0xC000 ≤ addr.toNat else 16384 * k + addr.toNat < 0x20000 := by
  have hlt := addr.isLt
  rw [shows_iff]
  unfold windowIndex
  split_ifs with h1
  · subst h1
    omega
  · omega

/-- The reset vector of four banks. -/
theorem shows_reset_vector : Shows 4 0xFFFC (65536 - 4) :=
  (shows_windowIndex_iff (by decide) (by decide)).mpr (by decide)

/-- A single bank is not in the lower half of the window, and of five banks the upper half shows
the first. -/
theorem not_shows_one_bank :
    ¬Shows 1 0x8000 (windowIndex 1 0x8000) ∧ ¬Shows 5 0xC000 (windowIndex 5 0xC000) := by
  rw [shows_iff, shows_iff]
  decide

end Cartridge

end Yanesemu
