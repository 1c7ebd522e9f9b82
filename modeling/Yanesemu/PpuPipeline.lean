import Yanesemu.BusMap
import Yanesemu.Lib.ShiftRegister
import Yanesemu.PpuFetch

/-!
# The pattern pipeline

The two pattern registers are filled in their high bytes on the dots 9, 17, .. of a line and shifted
right on the other dots but the first; a pixel is read at bit 0 before either. The fills take the
place of a shift, so there are seven shifts for each tile, and a byte is not turned around when it
is loaded.

1. A dot does to both registers what `dotOp` says (`run_reg`), so along a line they are a shift
   register in the sense of the library (`reg_iterate`).
2. `holder` names the bit of the tile each cell holds. Of a tile, bit 0 comes out first and bit 6
   twice; bit 7 is overwritten by the next fill one shift before it would come out
   (`held_output`, `held_ne_seven`, `held_lost`).
3. On a line of the emulator the two are put together, up to the index a pixel is looked up with.
-/

namespace Yanesemu.Ppu

open Interaction Util ShiftRegister

/-! ### The registers on a dot -/

/-- The two planes of a pattern. -/
inductive Plane
  | low | high
  deriving DecidableEq, Repr

def Plane.reg (sh : Shift) : Plane → Uint16
  | low => sh.tlow
  | high => sh.thigh

def Plane.latch (t : Tile) : Plane → Uint8
  | low => t.low
  | high => t.high

/-- What the dot `n ≤ 256` of a visible line does to the registers: the fill on the dot `8 * k + 1`
loads the tile fetched in the eight dots before, which is called the tile `k + 1`. -/
def dotOp (n : ℕ) : Op :=
  if n = 0 ∨ n = 1 then .hold
  else if n % 8 = 1 then .fill (n / 8 + 1)
  else .shift

/-- The bits of a register. -/
def regBits (pl : Plane) (p : Ppu) : ℕ → Bool := (pl.reg p.shift).getLsbD

def latchBits (pl : Plane) (p : Ppu) : ℕ → Bool := (pl.latch p.tile).getLsbD

section Dot

variable {σ : Type} (H : Handler ppuSig σ) (s : Sys Ppu σ) (pl : Plane)

theorem shiftThree_chip (amount : ℤ) : (post H (shiftThree amount) s).chip = s.chip := by
  unfold shiftThree
  split <;> rfl

theorem reg_shiftRun :
    regBits pl (post H shiftRun s).chip = ShiftRegister.step 8 8 (fun _ => latchBits pl s.chip)
      (regBits pl s.chip) .shift := by
  funext i
  have h (x : Uint16) : (x >>> 1).getLsbD i = x.getLsbD (i + 1) := by
    rw [BitVec.getLsbD_ushiftRight, Nat.add_comm]
  cases pl <;> exact h _

theorem reg_shiftFill (k : ℕ) :
    regBits pl (post H shiftFill s).chip = ShiftRegister.step 8 8 (fun _ => latchBits pl s.chip)
      (regBits pl s.chip) (.fill k) := by
  have hpost : regBits pl (post H shiftFill s).chip =
      ((setbits ((pl.reg s.chip.shift).setWidth 64) 8 8
        ((pl.latch s.chip.tile).setWidth 64)).setWidth 16).getLsbD := by
    cases pl <;> simp [shiftFill, regBits, Plane.reg, Plane.latch, shiftThree_chip]
  rw [hpost]
  funext i
  by_cases hi : i < 16
  · rw [getLsbD_setbits_setWidth (by decide) (by decide) _ _ hi, BitVec.getLsbD_setWidth]
    show (if 8 ≤ i ∧ i < 8 + 8 then _ else _) = if 8 ≤ i ∧ i < 8 + 8 then _ else _
    by_cases hin : 8 ≤ i ∧ i < 8 + 8
    · rw [if_pos hin, if_pos hin, decide_eq_true (by omega), Bool.true_and]
      rfl
    · rw [if_neg hin, if_neg hin]
      rfl
  · show _ = if 8 ≤ i ∧ i < 8 + 8 then _ else _
    rw [if_neg (by omega), BitVec.getLsbD_of_ge _ _ (by omega)]
    exact (BitVec.getLsbD_of_ge _ _ (by omega)).symm

/-- Equal in the pattern registers. -/
def SameRegs (p p' : Ppu) : Prop := ∀ pl, regBits pl p' = regBits pl p

theorem SameRegs.trans (p q r : Ppu) (h : SameRegs p q) (h' : SameRegs q r) : SameRegs p r :=
  fun pl => (h' pl).trans (h pl)

theorem sameRegs_self (p : Ppu) : SameRegs p p := fun _ => rfl

theorem sameRegs_of_onlyAddr {p p' : Ppu} (h : OnlyAddr p p') : SameRegs p p' := by
  obtain ⟨a, rfl⟩ := h
  exact sameRegs_self p

/-- What comes after the registers in a dot. -/
theorem keeps_incs (n : ℕ) : Keeps (fun _ => False) SameRegs (do
    (if n % 8 = 0 ∧ n ≠ 256 then incVHorzpos else pure ())
    (if n = 256 then incVVertpos else pure ())) := by
  have hpure : Keeps (fun _ => False) SameRegs (pure () : PpuM Unit) := Keeps.pure sameRegs_self ()
  have hhorz : Keeps (fun _ => False) SameRegs incVHorzpos :=
    keeps_incVHorzpos.mono (fun _ ho => ho) fun _ _ => sameRegs_of_onlyAddr
  have hvert : Keeps (fun _ => False) SameRegs incVVertpos :=
    keeps_incVVertpos.mono (fun _ ho => ho) fun _ _ => sameRegs_of_onlyAddr
  apply Keeps.bind SameRegs.trans (Keeps.ite hhorz hpure)
  intro _
  exact Keeps.ite hvert hpure

theorem reg_fetchCycle {n : ℕ} (hn : 1 ≤ n) :
    regBits pl (post H (fetchCycle n) s).chip =
      ShiftRegister.step 8 8 (fun _ => latchBits pl s.chip) (regBits pl s.chip) (dotOp n) := by
  have hout : Keeps (fun _ => True) Eq (if 4 ≤ n ∧ n ≤ 256 then output else pure ()) :=
    Keeps.ite (keeps_output.mono (fun _ _ => trivial) fun _ _ h => h) (Keeps.pure (fun _ => rfl) ())
  unfold fetchCycle
  rw [post_bind]
  have hs : s.chip = (post H (if 4 ≤ n ∧ n ≤ 256 then output else pure ()) s).chip := hout.post H s
  rw [hs]
  generalize post H (if 4 ≤ n ∧ n ≤ 256 then output else pure ()) s = t
  rw [post_bind, post_bind, post_bind]
  refine ((keeps_incs n).post H _ pl).trans ?_
  by_cases hfill : n % 8 = 1
  · -- the first step of the pipeline fetches nothing
    rw [hfill, if_neg (by simp), post_pure]
    show regBits pl (post H _ t).chip = _
    unfold dotOp
    by_cases h1 : n = 1
    · rw [if_neg (by simp [h1]), if_pos (Or.inr h1)]
      rfl
    · rw [if_pos ⟨rfl, h1⟩, if_neg (by omega), if_pos hfill]
      exact reg_shiftFill H t pl _
  · obtain ⟨t', htile⟩ := (keeps_backgroundCycle (n % 8)).post H t
    rw [if_pos hfill, if_neg (fun h : _ ∧ _ => hfill h.1), post_pure, reg_shiftRun]
    unfold dotOp
    rw [if_neg (by omega), if_neg hfill]
    show ShiftRegister.step 8 8 _ (regBits pl _) _ = _
    rw [htile]
    rfl

theorem reg_cycletab {n : ℕ} (hn : n ≤ 256) :
    regBits pl (post H (cycletab n) s).chip =
      ShiftRegister.step 8 8 (fun _ => latchBits pl s.chip) (regBits pl s.chip) (dotOp n) := by
  unfold cycletab
  by_cases h0 : n = 0
  · subst h0
    rfl
  · have hfetch : Fetching n := Or.inl ⟨by omega, hn⟩
    unfold ccycle
    rw [if_neg (by omega), if_pos hfetch, if_neg (by omega), post_bind, post_pure]
    exact reg_fetchCycle H s pl (by omega)

/-- **The pattern registers after a dot.** -/
theorem run_reg (hline : s.chip.line < 240) (hdot : s.chip.dot ≤ 256) :
    regBits pl (post H run s).chip =
      ShiftRegister.step 8 8 (fun _ => latchBits pl s.chip) (regBits pl s.chip)
        (dotOp s.chip.dot) := by
  unfold run
  rw [post_bind, val_get, post_get, post_bind, post_bind, post_modify, post_modify]
  show regBits pl (post H (lcycle s.chip.line s.chip.dot) s).chip = _
  unfold lcycle
  rw [post_bind, if_pos hline]
  exact reg_cycletab H _ pl hdot

end Dot

/-! ### The registers along a line -/

/-- The pattern registers of a visible line are a shift register. The tile `k` is in the latches
when the dot `8 * (k - 1) + 1` begins. -/
theorem reg_iterate {σ : Type} (H : Handler ppuSig σ) {s : Sys Ppu σ} (hline : s.chip.line < 240)
    (hdot : s.chip.dot = 0) (hroom : Room 341 s.chip) (pl : Plane) {n : ℕ} (hn : n ≤ 257) :
    regBits pl ((post H run)^[n] s).chip =
      cells 8 8 (fun k => latchBits pl ((post H run)^[8 * (k - 1) + 1] s).chip) dotOp
        (regBits pl s.chip) n := by
  apply eq_cells (f := fun n => regBits pl ((post H run)^[n] s).chip) rfl _ hn
  intro n hn
  obtain ⟨hline', hdot'⟩ :=
    (onLine_iterate H hdot hroom (j := n) (by omega) (by omega)).position hdot (by omega)
  show regBits pl ((post H run)^[n + 1] s).chip = _
  rw [Function.iterate_succ_apply', run_reg H _ pl (by omega) (by omega), hdot']
  unfold dotOp
  by_cases hhold : n = 0 ∨ n = 1
  · rw [if_pos hhold]
    rfl
  · rw [if_neg hhold]
    by_cases hfill : n % 8 = 1
    · rw [if_pos hfill]
      have htile : 8 * (n / 8 + 1 - 1) + 1 = n := by omega
      show ShiftRegister.step 8 8 (fun _ => _) _ (.fill (n / 8 + 1)) = ShiftRegister.step 8 8 _ _ _
      unfold ShiftRegister.step
      dsimp only
      rw [htile]
    · rw [if_neg hfill]
      rfl

/-- Nothing but the PPU changes along a visible line. -/
theorem env_iterate {σ : Type} (H : Handler ppuSig σ) {s : Sys Ppu σ} (hline : s.chip.line < 240)
    (hdot : s.chip.dot = 0) (hroom : Room 341 s.chip) (hstill : Still H s.env) {n : ℕ}
    (hn : n ≤ 340) : ((post H run)^[n] s).env = s.env := by
  induction n with
  | zero => rfl
  | succ n ih =>
    have henv := ih (by omega)
    have hon := onLine_iterate H hdot hroom (j := n) (by omega) (by omega)
    have hrendered : ((post H run)^[n] s).chip.Rendered := by
      unfold Rendered
      rw [(hon.position hdot (by omega)).1]
      exact Or.inl (Nat.le_of_lt_succ hline)
    have hstill' : Still H ((post H run)^[n] s).env := by rwa [henv]
    rw [Function.iterate_succ_apply', hstill'.env_run H hrendered, henv]

/-! ### The bits of a tile -/

/-- The names of the bits in the registers when a dot of a line begins. -/
def held : ℕ → ℕ → Name := holder 8 8 dotOp

theorem dotOp_fill {m : ℕ} (hm : 1 ≤ m) : dotOp (8 * m + 1) = .fill (m + 1) := by
  unfold dotOp
  rw [if_neg (by omega), if_pos (by omega), show (8 * m + 1) / 8 = m by omega]

theorem dotOp_shift {m i : ℕ} (hi : i < 7) : dotOp (8 * m + 1 + 1 + i) = .shift := by
  unfold dotOp
  rw [if_neg (by omega), if_neg (by omega)]

/-- From a fill to the next. -/
theorem held_group {m j : ℕ} (hm : 1 ≤ m) (hj : j ≤ 7) (i : ℕ) :
    held (8 * m + 1 + 1 + j) i =
      if 8 ≤ i + j ∧ i + j < 8 + 8 then .bit (m + 1) (i + j - 8) else held (8 * m + 1) (i + j) :=
  cells_of_fill (dotOp_fill hm) (fun _ hn => dotOp_shift (by omega)) i

/-- When the next tile is filled in, seven bits of a tile have a place in the low byte; the last
one is still in the high byte. -/
theorem held_fill {m i : ℕ} (hm : 2 ≤ m) (hi : 1 ≤ i ∧ i ≤ 8) :
    held (8 * m + 1) i = .bit m (i - 1) := by
  have h := held_group (m := m - 1) (j := 7) (by omega) (by omega) i
  rw [show 8 * (m - 1) + 1 + 1 + 7 = 8 * m + 1 by omega, if_pos (by omega),
    show m - 1 + 1 = m by omega, show i + 7 - 8 = i - 1 by omega] at h
  exact h

/-- **What comes out.** The eight dots from `8 * k + 3` on read the bits 0 to 6 of the tile `k`, and
bit 6 again. -/
theorem held_output {k j : ℕ} (hk : 2 ≤ k) (hj : j < 8) :
    held (8 * k + 3 + j) 0 = .bit k (min j 6) := by
  by_cases hlast : j = 7
  · subst hlast
    have hfill := held_group (m := k + 1) (j := 0) (by omega) (by omega) 0
    have hbefore := held_group (m := k) (j := 7) (by omega) (by omega) 0
    rw [if_neg (by omega), held_fill hk (by omega)] at hbefore
    rw [if_neg (by omega)] at hfill
    exact hfill.trans hbefore
  · have h := held_group (m := k) (j := j + 1) (by omega) (by omega) 0
    rw [if_neg (by omega), held_fill hk (by omega)] at h
    rw [show 8 * k + 3 + j = 8 * k + 1 + 1 + (j + 1) by omega, h]
    congr 1
    omega

/-- Before the first tile comes out, the registers run empty. -/
theorem held_start : ∀ n < 19, ∃ i < 16, held n 0 = .start i := by
  decide

theorem held_ne_seven (n k : ℕ) : held n 0 ≠ .bit k 7 := by
  intro h
  by_cases hn : n < 19
  · obtain ⟨i, -, hi⟩ := held_start n hn
    rw [hi] at h
    cases h
  · have hout := held_output (k := (n - 3) / 8) (j := (n - 3) % 8) (by omega) (by omega)
    rw [show 8 * ((n - 3) / 8) + 3 + (n - 3) % 8 = n by omega, h] at hout
    injection hout with _ hbit
    omega

/-- **What is lost.** Bit 7 of a tile is in the registers when the next tile is filled in, and is
not there any more afterwards. -/
theorem held_lost {k : ℕ} (hk : 2 ≤ k) :
    held (8 * k + 1) 8 = .bit k 7 ∧ ∀ i < 16, held (8 * k + 1 + 1) i ≠ .bit k 7 := by
  refine ⟨held_fill hk (by omega), ?_⟩
  intro i hi h
  have hgroup := held_group (m := k) (j := 0) (by omega) (by omega) i
  rw [show 8 * k + 1 + 1 + 0 = 8 * k + 1 + 1 by omega, h] at hgroup
  by_cases hhigh : 8 ≤ i
  · rw [if_pos (by omega)] at hgroup
    injection hgroup with htile _
    omega
  · rw [if_neg (by omega)] at hgroup
    rcases Nat.eq_zero_or_pos i with rfl | hpos
    · exact held_ne_seven _ _ hgroup.symm
    · rw [held_fill hk (by omega)] at hgroup
      injection hgroup with _ hbit
      omega

/-! ### Pixels -/

/-- The two bits of a pixel, `palind`. -/
def pixelOf (hibit lowbit : Bool) : Uint8 := ofBool 8 hibit <<< 1 ||| ofBool 8 lowbit

/-- What `bg_output` computes as `palind`. -/
def palind (p : Ppu) : Uint8 :=
  let mask : Uint8 := (1 : Uint64) <<< p.vram.fineX.toNat |>.setWidth 8
  pixelOf (truthy (p.shift.thigh &&& mask.setWidth 16)) (truthy (p.shift.tlow &&& mask.setWidth 16))

/-- The palette it computes as `pal`. -/
def palette (p : Ppu) : Uint8 :=
  let mask : Uint8 := (1 : Uint64) <<< p.vram.fineX.toNat |>.setWidth 8
  ofBool 8 (truthy (p.shift.ahigh &&& mask)) <<< 1 ||| ofBool 8 (truthy (p.shift.alow &&& mask))

theorem bgOutput_eq : bgOutput = (do
    let p ← get
    getcolor false (palette p) (palind p)) := rfl

/-- With no fine scroll the pixel is read at bit 0. -/
theorem palind_eq {p : Ppu} (hfine : p.vram.fineX.toNat = 0) :
    palind p = pixelOf (regBits .high p 0) (regBits .low p 0) := by
  have hmask : ((1 : Uint64) <<< p.vram.fineX.toNat).setWidth 8 = (1 : Uint8) := by
    rw [hfine]
    rfl
  unfold palind
  rw [hmask]
  exact congrArg₂ pixelOf (truthy_and_twoPow (i := 0) p.shift.thigh (by decide))
    (truthy_and_twoPow (i := 0) p.shift.tlow (by decide))

end Yanesemu.Ppu

namespace Yanesemu.Emulator

open Interaction ShiftRegister
open Ppu (Plane Room dotOp held regBits latchBits palind pixelOf)

/-! ### A line of the emulator -/

/-- The PPU when the dot `n` begins, with nothing but the PPU running since dot 0. -/
def atDot (e : Emulator) (n : ℕ) : Ppu := (ppuRun^[n] e).ppu

/-- The names of the bits in the registers along the line. -/
def holder (e : Emulator) : ℕ → ℕ → Name :=
  ShiftRegister.holder 8 8 fun n => dotOp (e.atDot n).dot

/-- The bits of the tile `k`: the latches after the dots `8 * (k - 2) + 1` to `8 * (k - 2) + 8`. -/
def tileBits (e : Emulator) (pl : Plane) (k : ℕ) : ℕ → Bool :=
  latchBits pl (e.atDot (8 * (k - 1) + 1))

/-- The bit of a name in a plane, and the pixel the two planes make of it. -/
def bitOf (e : Emulator) (pl : Plane) (name : Name) : Bool :=
  name.value (e.tileBits pl) (regBits pl e.ppu)

def pixel (e : Emulator) (name : Name) : Uint8 := pixelOf (e.bitOf .high name) (e.bitOf .low name)

/-- The output of the dot `n` reads the bit `b` of the tile `k`. -/
def Outputs (e : Emulator) (k b n : ℕ) : Prop := 4 ≤ n ∧ n ≤ 256 ∧ e.holder n 0 = .bit k b

/-- The bits 7 to 0 of the tile are read, in this order, on eight consecutive dots. -/
def InOrder (e : Emulator) (k : ℕ) : Prop := ∃ d, ∀ j < 8, e.Outputs k (7 - j) (d + j)

def EachOnce (e : Emulator) (k : ℕ) : Prop := ∀ b < 8, ∃! n, e.Outputs k b n

/-- A bit of the tile that is in the registers stays there until it has been read. -/
def ReadBeforeLost (e : Emulator) (k : ℕ) : Prop := ∀ b < 8, ∀ n ≤ 256,
  (∃ i < 16, e.holder n i = .bit k b) →
    (∃ i < 16, e.holder (n + 1) i = .bit k b) ∨ ∃ m ≤ n, e.Outputs k b m

section Line

variable {e : Emulator} (hline : e.ppu.line ≤ 239) (hdot : e.ppu.dot = 0) (hroom : Room 341 e.ppu)
include hdot hroom

theorem onLine_atDot {n : ℕ} (hn : n ≤ 340) : Ppu.OnLine e.ppu n (e.atDot n) := by
  have hon := Ppu.onLine_iterate ppuEnv (s := ⟨e.ppu, e⟩) hdot hroom (j := n) (by omega) (by omega)
  rw [← (ppu_iterate e n).1] at hon
  exact hon

theorem holder_eq {n : ℕ} (hn : n ≤ 340) : e.holder n = held n := by
  apply cells_congr
  intro m hm
  rw [((onLine_atDot hdot hroom (by omega)).position hdot (by omega)).2]

include hline

/-- The registers hold the bits `holder` names. -/
theorem regBits_atDot (pl : Plane) {n : ℕ} (hn : n ≤ 257) (i : ℕ) :
    regBits pl (e.atDot n) i = e.bitOf pl (e.holder n i) := by
  have hreg := Ppu.reg_iterate ppuEnv (s := ⟨e.ppu, e⟩) (Nat.lt_succ_of_le hline) hdot hroom pl hn
  have hiter (m : ℕ) : ((post ppuEnv Ppu.run)^[m] ⟨e.ppu, e⟩).chip = e.atDot m :=
    (ppu_iterate e m).1.symm
  simp only [hiter] at hreg
  rw [hreg, cells_eq_value, holder_eq hdot hroom (by omega)]
  rfl

theorem palind_atDot (hfine : e.ppu.vram.fineX.toNat = 0) {n : ℕ} (hn : n ≤ 257) :
    palind (e.atDot n) = e.pixel (e.holder n 0) := by
  have hfine' : (e.atDot n).vram.fineX.toNat = 0 := by
    rw [(onLine_atDot hdot hroom (by omega)).vram]
    exact hfine
  rw [Ppu.palind_eq hfine', regBits_atDot hline hdot hroom .high hn,
    regBits_atDot hline hdot hroom .low hn]
  rfl

omit hline in
/-- Bit 7 of a tile is read on no dot, and is overwritten on the dot of the next fill. -/
theorem not_readBeforeLost {k : ℕ} (hk : 2 ≤ k) (hk' : k ≤ 31) : ¬e.ReadBeforeLost k := by
  intro h
  have hnow := holder_eq hdot hroom (n := 8 * k + 1) (by omega)
  have hnext := holder_eq hdot hroom (n := 8 * k + 1 + 1) (by omega)
  obtain ⟨hin, hout⟩ := Ppu.held_lost hk
  rcases h 7 (by omega) (8 * k + 1) (by omega) ⟨8, by omega, by rw [hnow, hin]⟩ with
    ⟨i, hi, hstill⟩ | ⟨m, -, -, hm, hread⟩
  · rw [hnext] at hstill
    exact hout i hi hstill
  · rw [holder_eq hdot hroom (by omega)] at hread
    exact Ppu.held_ne_seven m k hread

omit hline in
theorem not_outputs_seven (k n : ℕ) : ¬e.Outputs k 7 n := by
  rintro ⟨-, hn, hread⟩
  rw [holder_eq hdot hroom (by omega)] at hread
  exact Ppu.held_ne_seven n k hread

end Line

/-- **The pattern pipeline.** On every visible line with fine X at 0 and nothing but the PPU
running, the pattern registers hold the bits `holder` names and each output reads the pixel of the
bit named at 0. Of the tile `k` the eight dots from `8 * k + 3` on, as far as they are on the
line, read the bits 0, 1, .., 6 and 6 again: the bits are not read in the order 7, 6, .., 0, they
are not read once each, and one of them is lost before it has been read. -/
theorem pattern_pipeline (e : Emulator) (hline : e.ppu.line ≤ 239) (hdot : e.ppu.dot = 0)
    (hfine : e.ppu.vram.fineX = 0) (hroom : Room 341 e.ppu) :
    (∀ n ≤ 257, ∀ pl i, regBits pl (e.atDot n) i = e.bitOf pl (e.holder n i)) ∧
    (∀ n ≤ 257, palind (e.atDot n) = e.pixel (e.holder n 0)) ∧
    ∀ k, 2 ≤ k → k ≤ 31 →
      (∀ j < 8, 8 * k + 3 + j ≤ 256 → e.Outputs k (min j 6) (8 * k + 3 + j)) ∧
      ¬e.InOrder k ∧ ¬e.EachOnce k ∧ ¬e.ReadBeforeLost k := by
  refine ⟨fun n hn pl i => regBits_atDot hline hdot hroom pl hn i,
    fun n hn => palind_atDot hline hdot hroom (congrArg BitVec.toNat hfine) hn, ?_⟩
  intro k hk hk'
  refine ⟨?_, ?_, ?_, not_readBeforeLost hdot hroom hk hk'⟩
  · intro j hj hn
    refine ⟨by omega, hn, ?_⟩
    rw [holder_eq hdot hroom (by omega)]
    exact Ppu.held_output hk hj
  · rintro ⟨d, hd⟩
    exact not_outputs_seven hdot hroom k d (hd 0 (by omega))
  · intro h
    obtain ⟨n, hn, -⟩ := h 7 (by omega)
    exact not_outputs_seven hdot hroom k n hn

/-! ### A tile that is not shown -/

theorem sameButPpu_atDot {e : Emulator} (hline : e.ppu.line ≤ 239) (hdot : e.ppu.dot = 0)
    (hroom : Room 341 e.ppu) {n : ℕ} (hn : n ≤ 340) : SameButPpu e (ppuRun^[n] e) := by
  have henv := Ppu.env_iterate ppuEnv (s := ⟨e.ppu, e⟩) (Nat.lt_succ_of_le hline) hdot hroom
    (still_ppuEnv e) hn
  have hsame := (ppu_iterate e n).2
  rw [henv] at hsame
  exact hsame

/-- The bytes of a tile come from the pattern tables. -/
theorem tile_group {e : Emulator} {k : ℕ} (hk : Ppu.Group k) (hdot : e.ppu.dot = 8 * k + 1)
    (hline : e.ppu.Rendered) (hroom : Room 8 e.ppu) :
    ∃ p : Ppu, (ppuRun^[8] e).ppu.tile.low = e.vram (Ppu.patternAddr p 0) ∧
      (ppuRun^[8] e).ppu.tile.high = e.vram (Ppu.patternAddr p 1) := by
  have hlatched := (Ppu.inGroup_iterate ppuEnv hk (s := ⟨e.ppu, e⟩) hdot hline hroom
    (still_ppuEnv e) (le_refl 8)).1.tile
  rw [← (ppu_iterate e 8).1] at hlatched
  generalize (ppuRun^[8] e).ppu.tile = t at hlatched ⊢
  refine ⟨{ e.ppu with tile := t }, ?_, ?_⟩
  · rw [Ppu.patternAddr_low]
    exact hlatched.low (by decide)
  · rw [Ppu.patternAddr_high]
    exact hlatched.high (by decide)

theorem tile_atDot {e : Emulator} (hline : e.ppu.line ≤ 239) (hdot : e.ppu.dot = 0)
    (hroom : Room 341 e.ppu) {k : ℕ} (hk : 2 ≤ k) (hk' : k ≤ 31) :
    ∃ p : Ppu, (e.atDot (8 * (k - 1) + 1)).tile.low = e.vram (Ppu.patternAddr p 0) ∧
      (e.atDot (8 * (k - 1) + 1)).tile.high = e.vram (Ppu.patternAddr p 1) := by
  have hon := onLine_atDot hdot hroom (n := 8 * (k - 2) + 1) (by omega)
  have hsame := sameButPpu_atDot hline hdot hroom (n := 8 * (k - 2) + 1) (by omega)
  have htile : e.atDot (8 * (k - 1) + 1) = (ppuRun^[8] (ppuRun^[8 * (k - 2) + 1] e)).ppu := by
    rw [← Function.iterate_add_apply, show 8 + (8 * (k - 2) + 1) = 8 * (k - 1) + 1 by omega]
    rfl
  rw [htile]
  unfold atDot at hon
  generalize ppuRun^[8 * (k - 2) + 1] e = e' at hon hsame ⊢
  obtain ⟨hline', hdot'⟩ := hon.position hdot (by omega)
  have hroom' : Room 8 e'.ppu := by
    obtain ⟨hc, hl⟩ := hroom
    unfold Room
    rw [hon.cycles, hon.lines]
    omega
  have hvram (a : Uint16) : e'.vram a = e.vram a := by
    obtain ⟨q, rfl⟩ := hsame
    exact readVram_ppu e q a _
  obtain ⟨p, hlow, hhigh⟩ :=
    tile_group (k := k - 2) (Or.inl (by omega)) hdot' (Or.inl (by omega)) hroom'
  exact ⟨p, hlow.trans (hvram _), hhigh.trans (hvram _)⟩

/-- A new emulator before its first line, with `0x80` everywhere in its video memory: bit 7 of both
planes is set in every row of every tile. -/
def striped : Emulator :=
  let e := ((construct zeroed).insertRom Cartridge.zeroRom (Cartridge.romFile 2 1)).2.1
  { e with
    ppu := { io.bgShow := true }
    vrammem := fun _ => 0x80
    palmem := fun _ => 0x80
    cartridge.chrrom.arr := fun _ => 0x80 }

theorem vram_striped {a : Uint16} (ha : a.toNat < 0x4000) : striped.vram a = 0x80 := by
  have hwired : VramWired .horz striped.vrambus :=
    vramWired_insertRom zeroed Cartridge.zeroRom (Cartridge.romFile 2 1) rfl (by decide)
  unfold vram
  rw [(hwired a ha).1]
  unfold vramArea
  split_ifs <;> rfl

theorem tileBits_striped (pl : Plane) {k : ℕ} (hk : 2 ≤ k) (hk' : k ≤ 31) :
    striped.tileBits pl k = (0x80 : Uint8).getLsbD := by
  obtain ⟨p, hlow, hhigh⟩ := tile_atDot (e := striped) (by decide) rfl ⟨by decide, by decide⟩ hk hk'
  rw [vram_striped (Ppu.patternAddr_lt p (by decide))] at hlow hhigh
  unfold tileBits latchBits
  cases pl with
  | low => exact congrArg BitVec.getLsbD hlow
  | high => exact congrArg BitVec.getLsbD hhigh

/-- Tile 2 of the first line: bit 6 is read on the dots 25 and 26, bit 7 never. -/
theorem pattern_pipeline_striped :
    (striped.Outputs 2 6 25 ∧ striped.Outputs 2 6 26) ∧ ¬striped.InOrder 2 ∧
      ¬striped.EachOnce 2 ∧ ¬striped.ReadBeforeLost 2 := by
  have hroom : Room 341 striped.ppu := ⟨by decide, by decide⟩
  obtain ⟨hout, hnot⟩ :=
    (pattern_pipeline striped (by decide) rfl rfl hroom).2.2 2 (by decide) (by decide)
  exact ⟨⟨hout 6 (by decide) (by decide), hout 7 (by decide) (by decide)⟩, hnot⟩

/-- No dot of the line shows a pixel of this pattern: the bit that is set is never read. -/
theorem pixel_striped {n : ℕ} (hn : n ≤ 256) : palind (striped.atDot n) = 0 := by
  have hroom : Room 341 striped.ppu := ⟨by decide, by decide⟩
  have hpixel := palind_atDot (e := striped) (by decide) rfl hroom rfl (n := n) (by omega)
  rw [hpixel, holder_eq rfl hroom (by omega)]
  by_cases hn' : n < 19
  · obtain ⟨i, -, hi⟩ := Ppu.held_start n hn'
    rw [hi]
    show pixelOf ((0#16).getLsbD i) ((0#16).getLsbD i) = 0
    rw [BitVec.getLsbD_zero]
    rfl
  · have hout := Ppu.held_output (k := (n - 3) / 8) (j := (n - 3) % 8) (by omega) (by omega)
    rw [show 8 * ((n - 3) / 8) + 3 + (n - 3) % 8 = n by omega] at hout
    have hbit : ∀ b < 7, (0x80 : Uint8).getLsbD b = false := by decide
    rw [hout]
    show pixelOf (striped.tileBits .high _ _) (striped.tileBits .low _ _) = 0
    rw [tileBits_striped _ (by omega) (by omega), tileBits_striped _ (by omega) (by omega),
      hbit _ (by omega)]
    rfl

/-- The pixel of bit 7 of tile 2 is 3, and no eight dots show the pixels of the tile. -/
theorem not_pattern_pipeline :
    striped.pixel (.bit 2 7) = 3 ∧
      ¬∃ d, 4 ≤ d ∧ d + 7 ≤ 256 ∧
        ∀ j < 8, palind (striped.atDot (d + j)) = striped.pixel (.bit 2 (7 - j)) := by
  have hseven : striped.pixel (.bit 2 7) = 3 := by
    show pixelOf (striped.tileBits .high 2 7) (striped.tileBits .low 2 7) = 3
    rw [tileBits_striped _ (by omega) (by omega), tileBits_striped _ (by omega) (by omega)]
    rfl
  refine ⟨hseven, ?_⟩
  rintro ⟨d, -, hd, hshown⟩
  have hfirst := hshown 0 (by omega)
  rw [pixel_striped (by omega)] at hfirst
  exact absurd (hfirst.trans hseven) (by decide)

end Yanesemu.Emulator
