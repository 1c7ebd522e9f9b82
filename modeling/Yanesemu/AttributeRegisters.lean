import Yanesemu.Lib.ShiftRegister
import Yanesemu.PpuPipeline

/-!
# The attribute registers

`alow` and `ahigh` are to be shift registers that are fed a bit at the top, one for each bit of the
palette of a tile. As a register of the library, a fed register holds its feed in every cell above
its own eight, and a shift is a shift.

`shift_run` does not run them so. Its last assignment goes to `ahigh` instead of `alow`: the low
register is fed zeros, and the high one takes the contents of the low one and its feed. What
`shift_fill` feeds is no better. The amount of its shift is `~` of a bit, which is negative, and
both registers get the same feed. So eight steps after a fill the palette is 2 at most
(`palette_after_fill`).
-/

namespace Yanesemu.Ppu

open Interaction Util ShiftRegister VramAddress

/-! ### Fed registers -/

/-- A register of eight cells with its feed above them. -/
def fed (a : Uint8) (feed : Bool) (i : ℕ) : Bool := if i < 8 then a.getLsbD i else feed

/-- The low `w` cells after `k` shifts. -/
def Shifted {w : ℕ} (cells₀ : ℕ → Bool) (k : ℕ) (a : BitVec w) : Prop :=
  ∀ i < w, a.getLsbD i = cells 0 0 (fun _ _ => false) (fun _ => .shift) cells₀ k i

theorem shifted_iff {w : ℕ} {cells₀ : ℕ → Bool} {k : ℕ} {a : BitVec w} :
    Shifted cells₀ k a ↔ ∀ i < w, a.getLsbD i = cells₀ (i + k) := by
  have hcells (i : ℕ) : cells 0 0 (fun _ _ => false) (fun _ => .shift) cells₀ k i =
      cells₀ (i + k) := by
    have h : cells 0 0 (fun _ _ => false) (fun _ => .shift) cells₀ (0 + k) i =
        cells 0 0 (fun _ _ => false) (fun _ => .shift) cells₀ 0 (i + k) :=
      cells_of_shifts (fun _ _ => rfl) i
    rwa [Nat.zero_add] at h
  unfold Shifted
  simp only [hcells]

/-- Eight shifts fill a register with its feed. -/
theorem shifted_eight_iff {a₀ : Uint8} {feed : Bool} {a : Uint8} (h : Shifted (fed a₀ feed) 8 a) :
    a = 0xFF ↔ feed = true := by
  rw [shifted_iff] at h
  have hbit (i : ℕ) (hi : i < 8) : a.getLsbD i = feed := by
    rw [h i hi]
    exact if_neg (by omega)
  constructor
  · rintro rfl
    exact (hbit 0 (by decide)).symm
  · rintro rfl
    apply BitVec.eq_of_getLsbD_eq
    intro i hi
    rw [hbit i hi]
    exact (BitVec.getLsbD_allOnes.trans (decide_eq_true hi)).symm

/-! ### What `shift_run` does -/

/-- `shift_run` on the registers. -/
def runRegs (sh : Shift) : Shift :=
  { sh with
    tlow := sh.tlow >>> 1
    thigh := sh.thigh >>> 1
    alow := sh.alow >>> 1
    ahigh := (setbit ((sh.alow >>> 1).setWidth 64) 7 sh.feedLow).setWidth 8 }

section Run

variable (sh : Shift) (k : ℕ)

/-- All but `ahigh` shift zeros in, and the feeds stay. -/
theorem iterate_runRegs :
    (runRegs^[k] sh).tlow = sh.tlow >>> k ∧ (runRegs^[k] sh).thigh = sh.thigh >>> k ∧
      (runRegs^[k] sh).alow = sh.alow >>> k ∧ (runRegs^[k] sh).feedLow = sh.feedLow ∧
      (runRegs^[k] sh).feedHigh = sh.feedHigh := by
  induction k with
  | zero => simp
  | succ k ih =>
    obtain ⟨htlow, hthigh, halow, hlow, hhigh⟩ := ih
    rw [Function.iterate_succ_apply']
    refine ⟨?_, ?_, ?_, hlow, hhigh⟩
    · show (runRegs^[k] sh).tlow >>> 1 = _
      rw [htlow, BitVec.shiftRight_add]
    · show (runRegs^[k] sh).thigh >>> 1 = _
      rw [hthigh, BitVec.shiftRight_add]
    · show (runRegs^[k] sh).alow >>> 1 = _
      rw [halow, BitVec.shiftRight_add]

/-- `ahigh` is the low register with the low feed on top. -/
theorem getLsbD_ahigh_iterate {i : ℕ} (hi : i < 8) :
    (runRegs^[k + 1] sh).ahigh.getLsbD i =
      if i = 7 then sh.feedLow else sh.alow.getLsbD (i + (k + 1)) := by
  obtain ⟨-, -, halow, hlow, -⟩ := iterate_runRegs sh k
  rw [Function.iterate_succ_apply']
  show ((setbit (((runRegs^[k] sh).alow >>> 1).setWidth 64) 7
    (runRegs^[k] sh).feedLow).setWidth 8).getLsbD i = _
  rw [halow, hlow, ← BitVec.shiftRight_add]
  unfold setbit
  rw [getLsbD_setbits_setWidth (by decide) (by decide) _ _ hi]
  show (if 7 ≤ i ∧ i < 7 + 1 then (ofBool 64 sh.feedLow).getLsbD (i - 7) else _) = _
  by_cases h7 : i = 7
  · subst h7
    cases sh.feedLow <;> rfl
  · rw [if_neg (by omega), if_neg h7, BitVec.getLsbD_ushiftRight, Nat.add_comm]

end Run

/-- The four registers after `k` steps as they are to be: each for itself, and the attribute
registers with their own feeds. -/
structure ShiftsApart (sh : Shift) (k : ℕ) (sh' : Shift) : Prop where
  alow : Shifted (fed sh.alow sh.feedLow) k sh'.alow
  ahigh : Shifted (fed sh.ahigh sh.feedHigh) k sh'.ahigh
  tlow : Shifted sh.tlow.getLsbD k sh'.tlow
  thigh : Shifted sh.thigh.getLsbD k sh'.thigh
  low_eight : k = 8 → (sh'.alow = 0xFF ↔ sh.feedLow = true)
  high_eight : k = 8 → (sh'.ahigh = 0xFF ↔ sh.feedHigh = true)

theorem shifted_ushiftRight {w : ℕ} (a : BitVec w) (k : ℕ) :
    Shifted a.getLsbD k (a >>> k) := by
  rw [shifted_iff]
  intro i _
  rw [BitVec.getLsbD_ushiftRight, Nat.add_comm]

/-- When a register that was shifted with zeros is the one that was to be fed. -/
theorem shifted_fed_ushiftRight_iff (a b : Uint8) (feed : Bool) {k : ℕ} (hk : k ≠ 0) :
    Shifted (fed a feed) k (b >>> k) ↔ feed = false ∧ b >>> k = a >>> k := by
  have hbit (x : Uint8) (i : ℕ) : (x >>> k).getLsbD i = x.getLsbD (i + k) := by
    rw [BitVec.getLsbD_ushiftRight, Nat.add_comm]
  have hfed (i : ℕ) : fed a false (i + k) = (a >>> k).getLsbD i := by
    rw [hbit, fed]
    split_ifs with hin
    · rfl
    · exact (BitVec.getLsbD_of_ge _ _ (Nat.le_of_not_lt hin)).symm
  rw [shifted_iff]
  constructor
  · intro h
    have h7 := h 7 (by decide)
    rw [hbit, fed, if_neg (by omega), BitVec.getLsbD_of_ge _ _ (by omega)] at h7
    subst h7
    refine ⟨rfl, BitVec.eq_of_getLsbD_eq fun i hi => ?_⟩
    rw [h i hi, hfed]
  · rintro ⟨rfl, heq⟩ i _
    rw [heq, hfed]

/-- Fed a zero, the high register is a copy of the low one. -/
theorem ahigh_iterate_runRegs {sh : Shift} (hlow : sh.feedLow = false) {k : ℕ} (hk : k ≠ 0) :
    (runRegs^[k] sh).ahigh = sh.alow >>> k := by
  obtain ⟨m, rfl⟩ := Nat.exists_eq_succ_of_ne_zero hk
  apply BitVec.eq_of_getLsbD_eq
  intro i hi
  rw [getLsbD_ahigh_iterate sh m hi, BitVec.getLsbD_ushiftRight, Nat.add_comm m.succ, hlow]
  split_ifs with h7
  · exact (BitVec.getLsbD_of_ge _ _ (by omega)).symm
  · rfl

theorem shiftsApart_zero (sh : Shift) : ShiftsApart sh 0 sh where
  alow := shifted_iff.mpr fun _ hi => (if_pos hi).symm
  ahigh := shifted_iff.mpr fun _ hi => (if_pos hi).symm
  tlow := shifted_iff.mpr fun _ _ => rfl
  thigh := shifted_iff.mpr fun _ _ => rfl
  low_eight h := absurd h (by decide)
  high_eight h := absurd h (by decide)

theorem shiftsApart_iterate_iff (sh : Shift) (k : ℕ) :
    ShiftsApart sh k (runRegs^[k] sh) ↔
      k = 0 ∨ sh.feedLow = false ∧ sh.feedHigh = false ∧ sh.alow >>> k = sh.ahigh >>> k := by
  obtain ⟨htlow, hthigh, halow, -, -⟩ := iterate_runRegs sh k
  by_cases hk : k = 0
  · subst hk
    exact ⟨fun _ => Or.inl rfl, fun _ => shiftsApart_zero sh⟩
  constructor
  · intro h
    have hlow := h.alow
    rw [halow, shifted_fed_ushiftRight_iff _ _ _ hk] at hlow
    have hhigh := h.ahigh
    rw [ahigh_iterate_runRegs hlow.1 hk, shifted_fed_ushiftRight_iff _ _ _ hk] at hhigh
    exact Or.inr ⟨hlow.1, hhigh⟩
  · rintro (h | ⟨hlow, hhigh, heq⟩)
    · exact absurd h hk
    have hfedLow : Shifted (fed sh.alow sh.feedLow) k (runRegs^[k] sh).alow := by
      rw [halow, shifted_fed_ushiftRight_iff _ _ _ hk]
      exact ⟨hlow, rfl⟩
    have hfedHigh : Shifted (fed sh.ahigh sh.feedHigh) k (runRegs^[k] sh).ahigh := by
      rw [ahigh_iterate_runRegs hlow hk, shifted_fed_ushiftRight_iff _ _ _ hk]
      exact ⟨hhigh, heq⟩
    refine ⟨hfedLow, hfedHigh, htlow ▸ shifted_ushiftRight _ k, hthigh ▸ shifted_ushiftRight _ k,
      ?_, ?_⟩
    · rintro rfl
      exact shifted_eight_iff hfedLow
    · rintro rfl
      exact shifted_eight_iff hfedHigh

section Sys

variable {σ : Type} (H : Handler ppuSig σ) (s : Sys Ppu σ)

/-- The PPU with these shift registers, and nothing else changed. -/
def withShift (s : Sys Ppu σ) (sh : Shift) : Sys Ppu σ := ⟨{ s.chip with shift := sh }, s.env⟩

theorem iterate_shiftRun (k : ℕ) :
    (post H shiftRun)^[k] s = withShift s (runRegs^[k] s.chip.shift) := by
  have hstep : Function.Semiconj (withShift s) runRegs (post H shiftRun) := fun _ => rfl
  exact (hstep.iterate_right k s.chip.shift).symm

/-- **The attribute registers.** `k` steps shift the four registers as they are to if there is
nothing to feed and the two attribute registers do not differ in what is left of them. -/
theorem shiftRun_apart_iff (k : ℕ) :
    ShiftsApart s.chip.shift k ((post H shiftRun)^[k] s).chip.shift ↔
      k = 0 ∨ s.chip.shift.feedLow = false ∧ s.chip.shift.feedHigh = false ∧
        s.chip.shift.alow >>> k = s.chip.shift.ahigh >>> k := by
  rw [iterate_shiftRun]
  exact shiftsApart_iterate_iff s.chip.shift k

end Sys

/-- The high register loses what it holds. -/
theorem not_shiftRun_apart_high :
    ¬ShiftsApart { ahigh := 0x02 } 1
      (post zeroBus shiftRun ⟨{ shift := { ahigh := 0x02 } }, ()⟩).chip.shift := by
  intro h
  have hbit := shifted_iff.mp h.ahigh 0 (by decide)
  exact absurd hbit (by decide)

/-! ### What a fill feeds -/

/-- The quadrant of the attribute byte that belongs to an address. -/
def quadrant (v : VramAddress) : ℕ :=
  2 * ((coarseY v).getLsbD 1).toNat + ((coarseX v).getLsbD 1).toNat

theorem attrShift_neg (v : VramAddress) : attrShift v < 0 := by
  unfold attrShift
  omega

theorem shiftThree_attrShift (v : VramAddress) :
    shiftThree (attrShift v) = ask (E := ppuSig) (.undefinedShift (attrShift v)) :=
  if_neg fun h => absurd h.1 (Int.not_le.mpr (attrShift_neg v))

/-- The mask of `bg_output` picks the bit `fine_x`. -/
theorem truthy_and_fineMask (x fineX : Uint8) :
    truthy (x &&& ((1 : Uint64) <<< fineX.toNat).setWidth 8) = x.getLsbD fineX.toNat := by
  have hmask : ((1 : Uint64) <<< fineX.toNat).setWidth 8 = BitVec.twoPow 8 fineX.toNat := by
    have hone : (1 : Uint64) <<< fineX.toNat = BitVec.twoPow 64 fineX.toNat := by
      rw [BitVec.twoPow_eq]
      rfl
    apply BitVec.eq_of_toNat_eq
    rw [hone, BitVec.toNat_setWidth, BitVec.toNat_twoPow, BitVec.toNat_twoPow,
      Nat.mod_mod_of_dvd _ (by decide)]
  rw [hmask]
  by_cases hlt : fineX.toNat < 8
  · exact truthy_and_twoPow x hlt
  · rw [BitVec.and_twoPow, BitVec.getLsbD_of_ge _ _ (Nat.le_of_not_lt hlt)]
    rfl

section Fill

variable {σ : Type} (H : Handler ppuSig σ) (s : Sys Ppu σ)

/-- The value of the shift for which C++ gives none. -/
def attrMask : Uint8 := (H (.undefinedShift (attrShift s.chip.vram.addr)) s.env).1

theorem asked_shiftFill :
    asked H shiftFill s = [.undefinedShift (attrShift s.chip.vram.addr)] := by
  unfold shiftFill
  simp only [asked_bind, asked_modify, asked_get, val_get, post_get, post_modify,
    shiftThree_attrShift]
  rfl

theorem post_shiftFill :
    ∃ sh e, post H shiftFill s = ⟨{ s.chip with shift := sh }, e⟩ ∧
      sh.feedLow = truthy (s.chip.tile.attr &&& attrMask H s) ∧
      sh.feedHigh = truthy (s.chip.tile.attr &&& attrMask H s) := by
  unfold shiftFill attrMask
  simp only [post_bind, post_modify, val_get, post_get, shiftThree_attrShift]
  exact ⟨_, _, rfl, rfl, rfl⟩

/-- The PPU after a fill and the eight steps of a tile. -/
def tileShifted : Ppu := ((post H shiftRun)^[8] (post H shiftFill s)).chip

/-- The palette is that of the tile's quadrant, and every shift amount is in range. -/
def SelectsPalette : Prop :=
  palette (tileShifted H s) = (s.chip.tile.attr >>> (2 * quadrant s.chip.vram.addr)) &&& 3 ∧
    ∀ amount, .undefinedShift amount ∉ asked H shiftFill s

/-- What the palette is: bit 1 of it is the feed, and only at the leftmost fine position. -/
theorem palette_tileShifted :
    palette (tileShifted H s) =
      if s.chip.vram.fineX = 7 ∧ truthy (s.chip.tile.attr &&& attrMask H s) = true then 2
      else 0 := by
  obtain ⟨sh, e, hpost, hlow, -⟩ := post_shiftFill H s
  have hchip : tileShifted H s = { s.chip with shift := runRegs^[8] sh } := by
    unfold tileShifted
    rw [hpost, iterate_shiftRun]
    rfl
  obtain ⟨-, -, halow, -, -⟩ := iterate_runRegs sh 8
  have halow' : (runRegs^[8] sh).alow = 0 := by
    rw [halow]
    exact BitVec.ushiftRight_eq_zero (Nat.le_refl 8)
  have hahigh : (runRegs^[8] sh).ahigh.getLsbD s.chip.vram.fineX.toNat =
      (decide (s.chip.vram.fineX = 7) && sh.feedLow) := by
    have hseven : s.chip.vram.fineX = 7 ↔ s.chip.vram.fineX.toNat = 7 := BitVec.toNat_inj.symm
    by_cases hlt : s.chip.vram.fineX.toNat < 8
    · rw [getLsbD_ahigh_iterate sh 7 hlt]
      by_cases h7 : s.chip.vram.fineX.toNat = 7
      · rw [if_pos h7, decide_eq_true (hseven.mpr h7), Bool.true_and]
      · rw [if_neg h7, decide_eq_false (mt hseven.mp h7), Bool.false_and,
          BitVec.getLsbD_of_ge _ _ (by omega)]
    · rw [BitVec.getLsbD_of_ge _ _ (Nat.le_of_not_lt hlt),
        decide_eq_false (fun h => by have := hseven.mp h; omega), Bool.false_and]
  have hzero : (0 : Uint8).getLsbD s.chip.vram.fineX.toNat = false := BitVec.getLsbD_zero
  rw [hchip]
  unfold palette
  simp only [truthy_and_fineMask, halow', hahigh, hlow]
  by_cases h7 : s.chip.vram.fineX = 7
  · simp only [h7, true_and]
    cases truthy (s.chip.tile.attr &&& attrMask H s) <;> rfl
  · rw [decide_eq_false h7, if_neg fun h => h7 h.1, Bool.false_and, hzero]
    rfl

/-- **Palette selection.** The shift of every fill is by a negative amount, so the palette is never
selected as it is to be. Whatever the machine makes of that shift, the palette is 0 or 2. -/
theorem palette_after_fill :
    ¬SelectsPalette H s ∧
      (∃ amount < 0, asked H shiftFill s = [.undefinedShift amount]) ∧
      palette (tileShifted H s) =
        if s.chip.vram.fineX = 7 ∧ truthy (s.chip.tile.attr &&& attrMask H s) = true then 2
        else 0 := by
  refine ⟨fun h => ?_, ⟨_, attrShift_neg _, asked_shiftFill H s⟩, palette_tileShifted H s⟩
  apply h.2 (attrShift s.chip.vram.addr)
  rw [asked_shiftFill]
  exact List.mem_singleton_self _

end Fill

/-- A tile whose four quadrants have the palette 1 gets the palette 0. -/
theorem not_selectsPalette_one :
    ¬SelectsPalette zeroBus ⟨{ tile := { attr := 0x55 } }, ()⟩ := by
  intro h
  exact absurd h.1 (by decide)

end Yanesemu.Ppu
