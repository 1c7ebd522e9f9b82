import Yanesemu.PpuRegisters
import Yanesemu.PpuScroll

/-!
# The registers in the debugger's status

`PPU::status` fills a record with the registers a debugger shows. PPUCTRL is not stored as the byte
that was written but as settings, two of which are bits of the temporary VRAM address; `Control` is
these settings on their own, and a byte and settings are the same thing (`Control.byte_ofByte`,
`Control.ofByte_byte`). Every register of the record is read from that one address, so the record
shows what was written to PPUMASK or OAMADDR just where PPUCTRL happens to be set to the same byte
(`reports_iff`).
-/

namespace Yanesemu.Ppu

open Interaction EventRun Util VramAddress

/-! ### The settings of PPUCTRL -/

@[ext] structure Control where
  nt : BitVec 2
  vramInc : Bool
  spPtAddr : Bool
  bgPtAddr : Bool
  spSize : Bool
  extBusDir : Bool
  nmiEnabled : Bool
  deriving DecidableEq, Repr

namespace Control

/-- The settings a byte stands for. -/
def ofByte (d : Uint8) : Control where
  nt := d.setWidth 2
  vramInc := d.getLsbD 2
  spPtAddr := d.getLsbD 3
  bgPtAddr := d.getLsbD 4
  spSize := d.getLsbD 5
  extBusDir := d.getLsbD 6
  nmiEnabled := d.getLsbD 7

/-- The byte that stands for the settings. -/
def byte (r : Control) : Uint8 :=
  r.nt.setWidth 8 ||| ofBool 8 r.vramInc <<< 2 ||| ofBool 8 r.spPtAddr <<< 3 |||
    ofBool 8 r.bgPtAddr <<< 4 ||| ofBool 8 r.spSize <<< 5 ||| ofBool 8 r.extBusDir <<< 6 |||
    ofBool 8 r.nmiEnabled <<< 7

theorem getLsbD_ofBool (b : Bool) (i : ℕ) : (ofBool 8 b).getLsbD i = (decide (i = 0) && b) := by
  cases b
  · simp
  · by_cases hi : i = 0
    · subst hi
      rfl
    · simp [hi]

theorem getLsbD_byte (r : Control) {i : ℕ} (hi : i < 8) :
    r.byte.getLsbD i = if i < 2 then r.nt.getLsbD i
      else [r.vramInc, r.spPtAddr, r.bgPtAddr, r.spSize, r.extBusDir, r.nmiEnabled].getD (i - 2)
        false := by
  unfold byte
  simp only [BitVec.getLsbD_or, BitVec.getLsbD_shiftLeft, BitVec.getLsbD_setWidth, getLsbD_ofBool]
  interval_cases i <;> simp

theorem byte_ofByte (d : Uint8) : (ofByte d).byte = d := by
  apply BitVec.eq_of_getLsbD_eq
  intro i hi
  rw [getLsbD_byte _ hi]
  unfold ofByte
  interval_cases i <;> simp

theorem ofByte_byte (r : Control) : ofByte r.byte = r := by
  refine Control.ext ?_ ?_ ?_ ?_ ?_ ?_ ?_
  · apply BitVec.eq_of_getLsbD_eq
    intro i hi
    have hlow := getLsbD_byte r (i := i) (by omega)
    rw [if_pos hi] at hlow
    simp [ofByte, hi, hlow]
  · exact getLsbD_byte r (by decide : 2 < 8)
  · exact getLsbD_byte r (by decide : 3 < 8)
  · exact getLsbD_byte r (by decide : 4 < 8)
  · exact getLsbD_byte r (by decide : 5 < 8)
  · exact getLsbD_byte r (by decide : 6 < 8)
  · exact getLsbD_byte r (by decide : 7 < 8)

theorem byte_eq_iff {r : Control} {d : Uint8} : r.byte = d ↔ r = ofByte d := by
  constructor
  · rintro rfl
    rw [ofByte_byte]
  · rintro rfl
    rw [byte_ofByte]

theorem ofByte_inj {d e : Uint8} : ofByte d = ofByte e ↔ d = e := by
  rw [← byte_eq_iff, byte_ofByte]

/-- What a call does to the settings; `latch` tells whether a write to PPUADDR is a second one. -/
def call (latch : Bool) (r : Control) : Call → Control
  | .writereg w d =>
    if w.toNat = 0x2000 then ofByte d
    else if w.toNat = 0x2006 ∧ latch = false then { r with nt := (d >>> 2).setWidth 2 }
    else r
  | .run | .readreg _ | .readregNoSideeff _ => r

theorem call_writereg_of_ne {w : Uint16} (h0 : w.toNat ≠ 0x2000) (h6 : w.toNat ≠ 0x2006)
    (latch : Bool) (r : Control) (d : Uint8) : r.call latch (.writereg w d) = r := by
  rw [call, if_neg h0, if_neg fun h => h6 h.1]

end Control

/-- The settings of a PPU. -/
def control (p : Ppu) : Control where
  nt := (nt p.vram.tmp).setWidth 2
  vramInc := p.io.vramInc
  spPtAddr := p.io.spPtAddr
  bgPtAddr := p.io.bgPtAddr
  spSize := p.io.spSize
  extBusDir := p.io.extBusDir
  nmiEnabled := p.io.nmiEnabled

variable {σ : Type} (H : Handler ppuSig σ)

theorem nt_ofByte (v : VramAddress) (d : Uint8) :
    (nt (setNt v ((d &&& 0x3).setWidth 64))).setWidth 2 = d.setWidth 2 := by
  rw [nt_setNt v (toNat_mask_lt (by decide))]
  apply BitVec.eq_of_getLsbD_eq
  intro i hi
  interval_cases i <;> simp

theorem nt_addrHigh (v : VramAddress) (d : Uint8) :
    (nt (addrHigh v d)).setWidth 2 = (d >>> 2).setWidth 2 := by
  apply BitVec.eq_of_getLsbD_eq
  intro i hi
  unfold nt
  rw [BitVec.getLsbD_setWidth, BitField.getLsbD_read (by decide)]
  show (decide (i < 2) && (decide (i < 2) && decide (10 + i < 64) &&
    (addrHigh v d).getLsbD (10 + i))) = _
  rw [getLsbD_addrHigh _ _ (by omega), if_pos (by omega)]
  interval_cases i <;> simp

theorem nt_addrLow (v : VramAddress) (d : Uint8) : nt (addrLow v d) = nt v := by
  apply BitVec.eq_of_getLsbD_eq
  intro i hi
  unfold nt
  rw [BitField.getLsbD_read (by decide), BitField.getLsbD_read (by decide)]
  show (decide (i < 2) && decide (10 + i < 64) && (addrLow v d).getLsbD (10 + i)) =
    (decide (i < 2) && decide (10 + i < 64) && v.getLsbD (10 + i))
  by_cases hi2 : i < 2
  · rw [getLsbD_addrLow _ _ (by omega), if_neg (by omega)]
  · simp [hi2]

theorem control_readreg (s : Sys Ppu σ) (w : Uint16) :
    control (post H (readreg w) s).chip = control s.chip := by
  unfold readreg
  rw [post_bind]
  split
  · rfl
  · rfl
  · unfold readData
    simp only [post_bind, post_ite]
    split <;> rfl
  · rfl

theorem control_writeCtrl (s : Sys Ppu σ) (d : Uint8) :
    control (post H (writeCtrl d) s).chip = Control.ofByte d := by
  unfold writeCtrl
  rw [post_modify]
  refine Control.ext (nt_ofByte _ d) ?_ ?_ ?_ ?_ ?_ ?_
  · exact truthy_and_twoPow d (by decide : 2 < 8)
  · exact truthy_and_twoPow d (by decide : 3 < 8)
  · exact truthy_and_twoPow d (by decide : 4 < 8)
  · exact truthy_and_twoPow d (by decide : 5 < 8)
  · exact truthy_and_twoPow d (by decide : 6 < 8)
  · exact truthy_and_twoPow d (by decide : 7 < 8)

theorem control_writeScroll (s : Sys Ppu σ) (d : Uint8) :
    control (post H (writeScroll d) s).chip = control s.chip := by
  unfold writeScroll control
  rw [post_modify]
  cases s.chip.io.scrollLatch <;> simp

theorem control_writeAddr (s : Sys Ppu σ) (d : Uint8) :
    control (post H (writeAddr d) s).chip =
      if s.chip.io.scrollLatch = false then { control s.chip with nt := (d >>> 2).setWidth 2 }
      else control s.chip := by
  unfold writeAddr control
  rw [post_modify]
  cases s.chip.io.scrollLatch
  · exact congrArg (fun n => { control s.chip with nt := n }) (nt_addrHigh s.chip.vram.tmp d)
  · exact congrArg (fun n : Uint64 => { control s.chip with nt := n.setWidth 2 })
      (nt_addrLow s.chip.vram.tmp d)

theorem control_writereg (s : Sys Ppu σ) (w : Uint16) (d : Uint8) :
    control (post H (writereg w d) s).chip =
      (control s.chip).call s.chip.io.scrollLatch (.writereg w d) := by
  unfold writereg
  rw [post_bind, post_modify]
  split
  · rename_i h
    rw [control_writeCtrl, Control.call, if_pos h]
  · rw [Control.call_writereg_of_ne (by omega) (by omega)]
    rfl
  · rw [Control.call_writereg_of_ne (by omega) (by omega)]
    rfl
  · rw [Control.call_writereg_of_ne (by omega) (by omega)]
    rfl
  · rw [Control.call_writereg_of_ne (by omega) (by omega), control_writeScroll]
    rfl
  · rename_i h
    rw [Control.call, if_neg (by omega), control_writeAddr]
    simp only [h, true_and]
    rfl
  · rw [Control.call_writereg_of_ne (by omega) (by omega)]
    rfl
  · rename_i h0 _ _ _ _ h6 _
    rw [Control.call_writereg_of_ne h0 h6]
    rfl

/-- Only writes to PPUCTRL and first writes to PPUADDR change the settings. -/
theorem control_step (s : Sys Ppu σ) (c : Call) :
    control (step H s c).chip = (control s.chip).call s.chip.io.scrollLatch c := by
  cases c with
  | run =>
    have hdrawn : Drawn s.chip.tick (post H run s).chip := (wp_post (wp_run s.chip) H).1
    rw [step_run, hdrawn]
    unfold tick dotted dotIo control
    split_ifs <;> rfl
  | readreg w => rw [step_readreg, control_readreg]; rfl
  | writereg w d => rw [step_writereg, control_writereg]
  | readregNoSideeff w =>
    rw [step_readregNoSideeff, (wp_post (wp_readregNoSideeff w s.chip) H).1]
    rfl

/-! ### What the record shows -/

/-- Each register of the record shows PPUCTRL. -/
theorem status_eq_control (s : Sys Ppu σ) :
    (val H status s).ctrl = (control s.chip).byte ∧
    (val H status s).mask = (control s.chip).byte ∧
    (val H status s).oamaddr = (control s.chip).byte := by
  have hnt : (nt s.chip.vram.tmp).setWidth 8 =
      ((nt s.chip.vram.tmp).setWidth 2 : BitVec 2).setWidth 8 := by
    have hlt := toNat_nt_lt s.chip.vram.tmp
    apply BitVec.eq_of_toNat_eq
    simp only [BitVec.toNat_setWidth]
    omega
  have hctrl : (val H status s).ctrl = (control s.chip).byte := by
    unfold Control.byte control
    rw [← hnt]
    rfl
  exact ⟨hctrl, hctrl, hctrl⟩

/-- After every part of the calls the field shows `d`. -/
def Shows (field : Status → Uint8) (d : Uint8) (s : Sys Ppu σ) (cs : List Call) : Prop :=
  ∀ pre, pre <+: cs → field (val H status (after (step H) s pre)) = d

/-- No call writes one of the registers. -/
def NoWrite (regs : List ℕ) (cs : List Call) : Prop :=
  ∀ w d, .writereg w d ∈ cs → w.toNat ∉ regs

/-- The record reports the byte written to PPUCTRL, PPUMASK or OAMADDR until the register is
changed. -/
structure Reports (d : Uint8) (s : Sys Ppu σ) (cs : List Call) : Prop where
  ctrl : NoWrite [0x2000, 0x2006] cs →
    Shows H Status.ctrl d (step H s (.writereg 0x2000 d)) cs
  mask : NoWrite [0x2001] cs → Shows H Status.mask d (step H s (.writereg 0x2001 d)) cs
  oamaddr : NoWrite [0x2003, 0x2004] cs →
    Shows H Status.oamaddr d (step H s (.writereg 0x2003 d)) cs

/-- The call writes nothing to PPUCTRL but `d`, and with a first write to PPUADDR nothing but the
nametable bits of `d`. -/
def KeepsControl (d : Uint8) (s : Sys Ppu σ) : Call → Prop
  | .writereg w e => (w.toNat = 0x2000 → e = d) ∧
      (w.toNat = 0x2006 → s.chip.io.scrollLatch = false →
        ((e >>> 2).setWidth 2 : BitVec 2) = d.setWidth 2)
  | .run | .readreg _ | .readregNoSideeff _ => True

/-- PPUCTRL is set to `d` when the register `w` is written, and the calls that follow keep it. -/
def ControlAgrees (w : Uint16) (d : Uint8) (s : Sys Ppu σ) (cs : List Call) : Prop :=
  control s.chip = Control.ofByte d ∧
    ∀ m ∈ moments (step H) (step H s (.writereg w d)) cs, KeepsControl d m.1 m.2

theorem control_keeps_iff {d : Uint8} (s : Sys Ppu σ) (c : Call)
    (hs : control s.chip = Control.ofByte d) :
    control (step H s c).chip = Control.ofByte d ↔ KeepsControl d s c := by
  rw [control_step, hs]
  cases c with
  | run => exact iff_of_true rfl trivial
  | readreg w => exact iff_of_true rfl trivial
  | readregNoSideeff w => exact iff_of_true rfl trivial
  | writereg w e =>
    rw [Control.call]
    by_cases h0 : w.toNat = 0x2000
    · simp [KeepsControl, h0, Control.ofByte_inj]
    · by_cases h6 : w.toNat = 0x2006 ∧ s.chip.io.scrollLatch = false
      · simp [KeepsControl, h6, Control.ofByte]
      · rw [if_neg h0, if_neg h6]
        exact iff_of_true rfl ⟨fun h => absurd h h0, fun h hl => absurd ⟨h, hl⟩ h6⟩

/-- A field that shows PPUCTRL shows `d` all along just if the settings start at `d` and every call
keeps them. -/
theorem shows_iff {field : Status → Uint8}
    (hfield : ∀ s : Sys Ppu σ, field (val H status s) = (control s.chip).byte) (d : Uint8)
    (s : Sys Ppu σ) (cs : List Call) :
    Shows H field d s cs ↔
      control s.chip = Control.ofByte d ∧ ∀ m ∈ moments (step H) s cs, KeepsControl d m.1 m.2 := by
  rw [← inv_prefix_iff (I := fun s : Sys Ppu σ => control s.chip = Control.ofByte d)
    (control_keeps_iff H)]
  refine forall₂_congr fun pre _ => ?_
  rw [hfield, Control.byte_eq_iff]

/-- After a write to a register that is neither PPUCTRL nor PPUADDR. -/
theorem shows_after_write_iff {field : Status → Uint8}
    (hfield : ∀ s : Sys Ppu σ, field (val H status s) = (control s.chip).byte) {w : Uint16}
    (h0 : w.toNat ≠ 0x2000) (h6 : w.toNat ≠ 0x2006) (d : Uint8) (s : Sys Ppu σ)
    (cs : List Call) :
    Shows H field d (step H s (.writereg w d)) cs ↔ ControlAgrees H w d s cs := by
  have hsame : control (step H s (.writereg w d)).chip = control s.chip := by
    rw [control_step, Control.call_writereg_of_ne h0 h6]
  rw [shows_iff H hfield, hsame]
  rfl

/-- PPUCTRL itself is always reported. -/
theorem shows_ctrl (d : Uint8) (s : Sys Ppu σ) {cs : List Call}
    (hcs : NoWrite [0x2000, 0x2006] cs) :
    Shows H Status.ctrl d (step H s (.writereg 0x2000 d)) cs := by
  rw [shows_iff H fun s => (status_eq_control H s).1]
  constructor
  · rw [control_step]
    rfl
  · intro m hm
    obtain ⟨pre, suf, hpre, -⟩ := mem_moments_iff.mp hm
    have hmem : m.2 ∈ cs := by
      rw [hpre]
      exact List.mem_append_right _ List.mem_cons_self
    cases hc : m.2 with
    | run => trivial
    | readreg w => trivial
    | readregNoSideeff w => trivial
    | writereg w e =>
      have hw := hcs w e (hc ▸ hmem)
      simp only [List.mem_cons, List.not_mem_nil, or_false, not_or] at hw
      exact ⟨fun h => absurd h hw.1, fun h => absurd h hw.2⟩

/-- **The debug view.** The record reports what was written exactly if PPUCTRL is set to the bytes
written to PPUMASK and OAMADDR for as long as these are to be reported. -/
theorem reports_iff (d : Uint8) (s : Sys Ppu σ) (cs : List Call) :
    Reports H d s cs ↔
      (NoWrite [0x2001] cs → ControlAgrees H 0x2001 d s cs) ∧
      (NoWrite [0x2003, 0x2004] cs → ControlAgrees H 0x2003 d s cs) := by
  have hmask := shows_after_write_iff H (fun s => (status_eq_control H s).2.1)
    (w := 0x2001) (by decide) (by decide) d s cs
  have hoam := shows_after_write_iff H (fun s => (status_eq_control H s).2.2)
    (w := 0x2003) (by decide) (by decide) d s cs
  rw [← hmask, ← hoam]
  exact ⟨fun h => ⟨h.mask, h.oamaddr⟩, fun h => ⟨fun hcs => shows_ctrl H d s hcs, h.1, h.2⟩⟩

/-- With the background and the sprites switched on after power, the record shows a mask of 0. -/
theorem not_reports_mask :
    ¬Reports zeroBus 0x1E (post zeroBus (start .power) ⟨{}, ()⟩) [] := by
  intro h
  have hmask := h.mask (fun _ _ hmem => absurd hmem List.not_mem_nil) [] List.nil_prefix
  exact absurd hmask (by decide)

end Yanesemu.Ppu
