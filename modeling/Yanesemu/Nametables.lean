import Yanesemu.BitFields
import Yanesemu.BusMap

/-!
# The name tables behind their mirroring

The PPU has memory for two of the four name tables. Which addresses share a cell is decided by
`decode`: its bits are those of the address without the ones the mirroring drops, so two addresses
have the same cell exactly if they agree in the others (`decode_eq_iff`). On a wired bus the cells
then are a memory of their own: no other handler writes them.
-/

namespace Yanesemu

open Interaction EventRun Util

/-! ### Cells -/

namespace Mirroring

/-- The addresses share a cell: under vertical mirroring they agree modulo `0x800`, under
horizontal mirroring in the bits 0 to 9 and 11. -/
def Aliases (mirroring : Mirroring) (a b : Uint16) : Prop :=
  match mirroring with
  | .vert => a.toNat % 0x800 = b.toNat % 0x800
  | .horz => (∀ i < 10, a.getLsbD i = b.getLsbD i) ∧ a.getLsbD 11 = b.getLsbD 11
  | .other => a = b

instance (mirroring : Mirroring) (a : Uint16) : DecidablePred (mirroring.Aliases a) := fun b =>
  match mirroring with
  | .vert => inferInstanceAs (Decidable (a.toNat % 0x800 = b.toNat % 0x800))
  | .horz => inferInstanceAs
      (Decidable ((∀ i < 10, a.getLsbD i = b.getLsbD i) ∧ a.getLsbD 11 = b.getLsbD 11))
  | .other => inferInstanceAs (Decidable (a = b))

/-- `getbits` masks with the number of bits, 2, which keeps bit 11 alone. -/
theorem getLsbD_decode_horz (a : Uint16) {i : ℕ} (hi : i < 16) :
    (horz.decode a).getLsbD i =
      if i < 10 then a.getLsbD i else decide (i = 10) && a.getLsbD 11 := by
  unfold decode
  dsimp only
  rw [BitVec.getLsbD_setWidth, getLsbD_setbits (by decide) _ _ (by omega)]
  unfold getbits
  interval_cases i <;> simp

theorem decode_horz_eq_iff (a b : Uint16) :
    horz.decode a = horz.decode b ↔ horz.Aliases a b := by
  constructor
  · intro h
    have hbit {i : ℕ} (hi : i < 16) : (horz.decode a).getLsbD i = (horz.decode b).getLsbD i := by
      rw [h]
    refine ⟨?_, ?_⟩
    · intro i hi
      have hi' := hbit (show i < 16 by omega)
      rw [getLsbD_decode_horz a (by omega), getLsbD_decode_horz b (by omega), if_pos hi,
        if_pos hi] at hi'
      exact hi'
    · have h10 := hbit (show 10 < 16 by decide)
      rw [getLsbD_decode_horz a (by decide), getLsbD_decode_horz b (by decide)] at h10
      exact h10
  · rintro ⟨hlow, h11⟩
    apply BitVec.eq_of_getLsbD_eq
    intro i hi
    rw [getLsbD_decode_horz a hi, getLsbD_decode_horz b hi, h11]
    split
    · next h => exact hlow i h
    · rfl

theorem toNat_decode_vert (a : Uint16) : (vert.decode a).toNat = a.toNat % 0x800 :=
  Emulator.toNat_and_7FF a

theorem decode_vert_eq_iff (a b : Uint16) :
    vert.decode a = vert.decode b ↔ vert.Aliases a b := by
  rw [← BitVec.toNat_inj, toNat_decode_vert, toNat_decode_vert]
  exact Iff.rfl

/-- **Aliases.** Two addresses have the same cell exactly if they are aliases. -/
theorem decode_eq_iff (mirroring : Mirroring) (a b : Uint16) :
    mirroring.decode a = mirroring.decode b ↔ mirroring.Aliases a b := by
  cases mirroring with
  | vert => exact decode_vert_eq_iff a b
  | horz => exact decode_horz_eq_iff a b
  | other => exact Iff.rfl

/-- The assertion `addr < VRAM_SIZE` of the handlers holds at every address. -/
theorem toNat_decode_lt {mirroring : Mirroring} (hm : mirroring ≠ .other) (a : Uint16) :
    (mirroring.decode a).toNat < 0x800 := by
  cases mirroring with
  | vert =>
    rw [toNat_decode_vert]
    omega
  | horz =>
    refine Nat.lt_pow_two_of_testBit (n := 11) _ ?_
    intro i hi
    by_cases h16 : i < 16
    · have hbit := getLsbD_decode_horz a h16
      rw [if_neg (by omega), decide_eq_false (by omega), Bool.false_and] at hbit
      exact hbit
    · exact BitVec.getLsbD_of_ge _ _ (by omega)
  | other => exact absurd rfl hm

end Mirroring

/-! ### The PPU's bus -/

/-- An address of the PPU's bus, which has `0x4000`. -/
abbrev VramBusAddr := { a : Uint16 // a.toNat < 0x4000 }

/-- The addresses of the name tables. -/
def InNametables (a : Uint16) : Prop := 0x2000 ≤ a.toNat ∧ a.toNat < 0x3F00

instance : DecidablePred InNametables := fun _ => inferInstanceAs (Decidable (_ ∧ _))

namespace Emulator

/-- `vrambus.read(addr)`. -/
def vramRead (e : Emulator) (addr : Uint16) : Uint8 := (ppuEnv (.read addr) e).1

/-- `vrambus.write(addr, data)`. -/
def vramWrite (e : Emulator) (addr : Uint16) (data : Uint8) : Emulator :=
  (ppuEnv (.write addr data) e).2

section Wired

variable {mirroring : Mirroring} {e : Emulator} {a : Uint16} {d : Uint8}
  (hb : VramWired mirroring e.vrambus)
include hb

theorem vramRead_nametable (ha : InNametables a) :
    e.vramRead a = e.vrammem (mirroring.decode a).toNat := by
  obtain ⟨hlo, hhi⟩ := ha
  unfold vramRead
  show e.readVram a (e.vrambus.reader a) = _
  rw [(hb a (by omega)).1, vramArea, if_neg (by omega), if_pos hhi, readVram]

theorem vramWrite_nametable (ha : InNametables a) :
    e.vramWrite a d =
      { e with vrammem := Function.update e.vrammem (mirroring.decode a).toNat d } := by
  obtain ⟨hlo, hhi⟩ := ha
  unfold vramWrite
  show e.writeVram a d (e.vrambus.writer a) = _
  rw [(hb a (by omega)).2, vramArea, if_neg (by omega), if_pos hhi, writeVram]

/-- The pattern tables are read-only, and the palette has its own memory. -/
theorem vramWrite_other (ha : ¬InNametables a) (ha' : a.toNat < 0x4000) :
    ∃ palmem, e.vramWrite a d = { e with palmem := palmem } := by
  unfold vramWrite
  show ∃ palmem, e.writeVram a d (e.vrambus.writer a) = _
  rw [(hb a ha').2]
  unfold vramArea
  split_ifs with h2 h3
  · exact ⟨e.palmem, rfl⟩
  · exact absurd ⟨Nat.le_of_not_lt h2, h3⟩ ha
  · exact ⟨_, rfl⟩

end Wired

/-- One write of a history. -/
def vramStep (e : Emulator) (w : VramBusAddr × Uint8) : Emulator := e.vramWrite w.1 w.2

theorem vramWired_vramStep {mirroring : Mirroring} (e : Emulator) (w : VramBusAddr × Uint8)
    (hb : VramWired mirroring e.vrambus) : VramWired mirroring (e.vramStep w).vrambus := by
  unfold vramStep
  by_cases hw : InNametables w.1
  · rw [vramWrite_nametable hb hw]
    exact hb
  · obtain ⟨pal, he⟩ := vramWrite_other (d := w.2) hb hw w.1.property
    rw [he]
    exact hb

/-- **Name tables.** Whatever is written on a wired bus, an address of the name tables reads as
the last value written to one of its aliases there, or as its cell was at the start; no write
elsewhere changes a cell, and no cell is out of range. -/
theorem nametables_after_writes {mirroring : Mirroring}
    (hm : mirroring = .vert ∨ mirroring = .horz) {start : Emulator}
    (hb : VramWired mirroring start.vrambus) (ws : List (VramBusAddr × Uint8)) (a : VramBusAddr) :
    let e := after vramStep start ws
    (InNametables a → e.vramRead a =
      (lastWrite (fun b : VramBusAddr => InNametables b ∧ mirroring.Aliases a b) ws).getD
        (start.vrammem (mirroring.decode a).toNat)) ∧
    (¬InNametables a → ∀ d, (e.vramStep (a, d)).vrammem = e.vrammem) ∧
    (mirroring.decode a).toNat < 0x800 := by
  intro e
  have he : VramWired mirroring e.vrambus :=
    after_inv (I := fun e : Emulator => VramWired mirroring e.vrambus) vramWired_vramStep hb ws
  refine ⟨?_, ?_, ?_⟩
  · intro ha
    rw [vramRead_nametable he ha]
    refine read_after_writes (I := fun e : Emulator => VramWired mirroring e.vrambus)
      (fun e => e.vrammem (mirroring.decode a).toNat) vramWired_vramStep ?_ ?_ hb ws
    · rintro s ⟨b, d⟩ hs ⟨hb', halias⟩
      unfold vramStep
      rw [vramWrite_nametable hs hb', (mirroring.decode_eq_iff a b).mpr halias]
      exact Function.update_self ..
    · rintro s ⟨b, d⟩ hs hmiss
      unfold vramStep
      by_cases hb' : InNametables b
      · have hne : mirroring.decode a ≠ mirroring.decode b := fun heq =>
          hmiss ⟨hb', (mirroring.decode_eq_iff a b).mp heq⟩
        rw [vramWrite_nametable hs hb']
        exact Function.update_of_ne (fun heq => hne (BitVec.eq_of_toNat_eq heq)) ..
      · obtain ⟨pal, hw⟩ := vramWrite_other (d := d) hs hb' b.property
        rw [hw]
  · intro ha d
    unfold vramStep
    obtain ⟨pal, hw⟩ := vramWrite_other (d := d) he ha a.property
    rw [hw]
  · refine Mirroring.toNat_decode_lt ?_ a
    rintro rfl
    rcases hm with h | h <;> cases h

/-- Under horizontal mirroring the first two tables share their cells, and so do those of the
area above. -/
theorem nametables_after_writes_zeros :
    let start := ((construct zeroed).insertRom Cartridge.zeroRom (Cartridge.romFile 2 1)).2.1
    let e := after vramStep start
      [(⟨0x2005, by decide⟩, 1), (⟨0x3405, by decide⟩, 2), (⟨0x2805, by decide⟩, 3)]
    e.vramRead 0x2005 = 2 := by
  have hwired := vramWired_insertRom zeroed Cartridge.zeroRom (Cartridge.romFile 2 1) rfl
    (by decide)
  exact (nametables_after_writes (Or.inr rfl) hwired
    [(⟨0x2005, by decide⟩, 1), (⟨0x3405, by decide⟩, 2), (⟨0x2805, by decide⟩, 3)]
    ⟨0x2005, by decide⟩).1 (by decide)

end Emulator

end Yanesemu
