import Yanesemu.PpuPipeline

/-!
# A row of the picture

The first two tiles of a row are fetched on the dots 321 to 336 of the line before, so a row begins
where that line ends. The registers are followed along whole lines here, the line before the first
row among them, up to what they hold at the end (`reg_end`).

The attribute registers then hold nothing (`plain_end`): `shift_run` never feeds `alow`, which runs
empty, and takes `ahigh` from it.
-/

namespace Yanesemu.Ppu

open Interaction Util ShiftRegister VramAddress

/-! ### The pattern registers along a whole line -/

/-- What the dot `n` of a line that is rendered does to the registers. -/
def lineOp (n : ℕ) : Op := if Fetching n then dotOp n else .hold

theorem lineOp_eq {n : ℕ} (hn : n ≤ 256) : lineOp n = dotOp n := by
  unfold lineOp
  split_ifs with hf
  · rfl
  · have h0 : n = 0 := by
      unfold Fetching at hf
      omega
    rw [h0]
    rfl

theorem lineOp_fill {k : ℕ} (hk : (1 ≤ k ∧ k ≤ 31) ∨ (40 ≤ k ∧ k ≤ 42)) :
    lineOp (8 * k + 1) = .fill (k + 1) := by
  have hf : Fetching (8 * k + 1) := by
    unfold Fetching
    omega
  rw [lineOp, if_pos hf, dotOp_fill (by omega)]

theorem lineOp_shift {n : ℕ} (hf : Fetching n) (hn : n % 8 ≠ 1) : lineOp n = .shift := by
  have hidle : ¬(n = 0 ∨ n = 1) := by
    unfold Fetching at hf
    omega
  rw [lineOp, if_pos hf, dotOp, if_neg hidle, if_neg hn]

/-- Equal in all of the shift registers. -/
def SameShift (p p' : Ppu) : Prop := p'.shift = p.shift

theorem SameShift.trans (p q r : Ppu) (h : SameShift p q) (h' : SameShift q r) : SameShift p r :=
  Eq.trans h' h

theorem sameShift_self (p : Ppu) : SameShift p p := rfl

theorem sameShift_of_onlyAddr (p p' : Ppu) (h : OnlyAddr p p') : SameShift p p' := by
  obtain ⟨a, rfl⟩ := h
  rfl

theorem keeps_preRender_shift (n : ℕ) : Keeps (fun _ => True) SameShift (preRender n) := by
  have hpure : Keeps (fun _ => True) SameShift (pure () : PpuM Unit) := Keeps.pure sameShift_self ()
  have hcopy : Keeps (fun _ => True) SameShift copyVVertpos :=
    keeps_copyVVertpos.mono (fun _ => False.elim) sameShift_of_onlyAddr
  have hbegin : Keeps (fun _ => True) SameShift beginFrame := by
    refine Keeps.bind SameShift.trans (Keeps.get sameShift_self) fun p => ?_
    refine Keeps.bind SameShift.trans (Keeps.ask sameShift_self trivial) fun _ => ?_
    exact Keeps.bind SameShift.trans (Keeps.ite (Keeps.modify fun _ => rfl) hpure) fun _ =>
      Keeps.modify fun _ => rfl
  refine Keeps.bind SameShift.trans (Keeps.ite (Keeps.modify fun _ => rfl) hpure) fun _ => ?_
  exact Keeps.bind SameShift.trans (Keeps.ite hcopy hpure) fun _ => Keeps.ite hbegin hpure

section Dot

variable {σ : Type} (H : Handler ppuSig σ) (s : Sys Ppu σ)

/-- A dot of a line that is rendered, as far as the shift registers go. -/
theorem shift_run (hline : s.chip.Rendered) : ∃ t : Sys Ppu σ, t.chip = s.chip ∧
    (post H run s).chip.shift = (post H (cycletab s.chip.dot) t).chip.shift := by
  refine ⟨post H (assert (decide (s.chip.dot ≤ 340))) s, rfl, ?_⟩
  unfold run
  rw [post_bind, val_get, post_get, post_bind, post_bind, post_modify, post_modify]
  show (post H (lcycle s.chip.line s.chip.dot) s).chip.shift = _
  unfold lcycle
  rw [post_bind]
  rcases hline with h239 | h261
  · rw [if_pos (by omega)]
  · rw [if_neg (by omega), if_neg (by omega), if_pos h261, post_bind]
    exact (keeps_preRender_shift _).post H _

/-- The dots 1 to 256 and 321 to 340 shift or fill, the others leave the registers. -/
theorem shift_cycletab (n : ℕ) : (post H (cycletab n) s).chip.shift =
    if Fetching n then (post H (fetchCycle n) s).chip.shift else s.chip.shift := by
  have hcopy : Keeps (fun _ => True) SameShift (if n = 257 then copyVHorzpos else pure ()) :=
    Keeps.ite (keeps_copyVHorzpos.mono (fun _ => False.elim) sameShift_of_onlyAddr)
      (Keeps.pure sameShift_self ())
  unfold cycletab ccycle
  by_cases hidle : n = 0 ∨ (258 ≤ n ∧ n ≤ 320)
  · have hf : ¬Fetching n := by
      unfold Fetching
      omega
    rw [if_pos hidle, if_neg hf, post_pure]
  · rw [if_neg hidle, post_bind]
    refine Eq.trans (hcopy.post H _) ?_
    split_ifs
    · rfl
    · rfl

/-- **The pattern registers after a dot** of any line that is rendered. -/
theorem reg_run (pl : Plane) (hline : s.chip.Rendered) :
    regBits pl (post H run s).chip =
      ShiftRegister.step 8 8 (fun _ => latchBits pl s.chip) (regBits pl s.chip)
        (lineOp s.chip.dot) := by
  obtain ⟨t, ht, hshift⟩ := shift_run H s hline
  rw [shift_cycletab] at hshift
  rw [← ht]
  unfold lineOp
  by_cases hf : Fetching s.chip.dot
  · have hpos : 1 ≤ s.chip.dot := by
      unfold Fetching at hf
      omega
    rw [if_pos hf] at hshift
    rw [ht, if_pos hf, ← ht, ← reg_fetchCycle H t pl (n := t.chip.dot) (by rwa [ht]), ht]
    exact congrArg (fun sh => (pl.reg sh).getLsbD) hshift
  · rw [if_neg hf] at hshift
    rw [ht, if_neg hf]
    exact congrArg (fun sh => (pl.reg sh).getLsbD) (hshift.trans (congrArg Ppu.shift ht))

end Dot

/-! ### The attribute registers -/

/-- What `alow` holds. -/
def alowBits (p : Ppu) : ℕ → Bool := p.shift.alow.getLsbD

/-- Nothing is left of the attributes but the bit that was fed in last. -/
structure Plain (p : Ppu) : Prop where
  alow : p.shift.alow = 0
  ahigh : ∀ i < 7, p.shift.ahigh.getLsbD i = false

/-- A fill of no cells. -/
theorem step_fill_none (words : ℕ → ℕ → Bool) (r : ℕ → Bool) (k : ℕ) :
    ShiftRegister.step 0 0 words r (.fill k) = r := by
  funext i
  have hout : ¬(0 ≤ i ∧ i < 0 + 0) := by omega
  show (if 0 ≤ i ∧ i < 0 + 0 then words k (i - 0) else r i) = r i
  rw [if_neg hout]

/-- What an operation does to the attribute registers. -/
structure AttrStep (op : Op) (p p' : Ppu) : Prop where
  alow : alowBits p' = ShiftRegister.step 0 0 (fun _ _ => false) (alowBits p) op
  ahigh : ∀ i < 7, p'.shift.ahigh.getLsbD i =
    if op = .shift then alowBits p' i else p.shift.ahigh.getLsbD i

theorem AttrStep.congr {op : Op} {p p' q q' : Ppu} (h : AttrStep op p p')
    (hp : p.shift = q.shift) (hp' : p'.shift = q'.shift) : AttrStep op q q' := by
  obtain ⟨hlow, hhigh⟩ := h
  unfold alowBits at *
  rw [hp, hp'] at *
  exact ⟨hlow, hhigh⟩

theorem AttrStep.plain {op : Op} {p p' : Ppu} (h : AttrStep op p p') (hp : Plain p) : Plain p' := by
  have hzero (i : ℕ) : alowBits p i = false := by
    unfold alowBits
    rw [hp.alow]
    exact BitVec.getLsbD_zero
  have hlow : alowBits p' = fun _ => false := by
    rw [h.alow]
    cases op with
    | hold => exact funext hzero
    | shift => exact funext fun i => hzero (i + 1)
    | fill k =>
      rw [step_fill_none]
      exact funext hzero
  refine ⟨?_, ?_⟩
  · exact BitVec.eq_of_getLsbD_eq fun i _ => (congrFun hlow i).trans BitVec.getLsbD_zero.symm
  · intro i hi
    rw [h.ahigh i hi, hlow, hp.ahigh i hi, ite_self]

section Attr

variable {σ : Type} (H : Handler ppuSig σ) (s : Sys Ppu σ)

theorem attrStep_of_eq {op : Op} (hop : op ≠ .shift) {p p' : Ppu}
    (hlow : p'.shift.alow = p.shift.alow) (hhigh : p'.shift.ahigh = p.shift.ahigh) :
    AttrStep op p p' := by
  refine ⟨?_, fun i _ => ?_⟩
  · unfold alowBits
    rw [hlow]
    cases op with
    | hold => rfl
    | shift => exact absurd rfl hop
    | fill k => rw [step_fill_none]
  · rw [if_neg hop, hhigh]

theorem attrStep_shiftRun : AttrStep .shift s.chip (post H shiftRun s).chip := by
  refine ⟨?_, fun i hi => ?_⟩
  · funext i
    show (s.chip.shift.alow >>> 1).getLsbD i = s.chip.shift.alow.getLsbD (i + 1)
    rw [BitVec.getLsbD_ushiftRight, Nat.add_comm]
  · rw [if_pos rfl]
    have hout : ¬((7 : Uint8).toNat ≤ i ∧ i < (7 : Uint8).toNat + (1 : Uint8).toNat) := by
      rw [show (7 : Uint8).toNat = 7 from rfl]
      omega
    show ((setbit ((s.chip.shift.alow >>> 1).setWidth 64) 7
      s.chip.shift.feedLow).setWidth 8).getLsbD i = (s.chip.shift.alow >>> 1).getLsbD i
    unfold setbit
    rw [getLsbD_setbits_setWidth (by decide) (by decide) _ _ (by omega), if_neg hout]

theorem attrStep_shiftFill (k : ℕ) : AttrStep (.fill k) s.chip (post H shiftFill s).chip := by
  refine attrStep_of_eq (by simp) ?_ ?_
  · simp [shiftFill, shiftThree_chip]
  · simp [shiftFill, shiftThree_chip]

theorem attrStep_fetchCycle {n : ℕ} (hf : Fetching n) :
    AttrStep (lineOp n) s.chip (post H (fetchCycle n) s).chip := by
  have hout : Keeps (fun _ => True) Eq (if 4 ≤ n ∧ n ≤ 256 then output else pure ()) :=
    Keeps.ite (keeps_output.mono (fun _ _ => trivial) fun _ _ h => h) (Keeps.pure (fun _ => rfl) ())
  have hpure : Keeps (fun _ => True) SameShift (pure () : PpuM Unit) := Keeps.pure sameShift_self ()
  have hincs : Keeps (fun _ => True) SameShift (do
      (if n % 8 = 0 ∧ n ≠ 256 then incVHorzpos else pure ())
      (if n = 256 then incVVertpos else pure ())) :=
    Keeps.bind SameShift.trans
      (Keeps.ite (keeps_incVHorzpos.mono (fun _ => False.elim) sameShift_of_onlyAddr) hpure)
      fun _ => Keeps.ite (keeps_incVVertpos.mono (fun _ => False.elim) sameShift_of_onlyAddr) hpure
  have hfirst := hout.post H s
  unfold fetchCycle
  rw [post_bind]
  generalize post H (if 4 ≤ n ∧ n ≤ 256 then output else pure ()) s = t at hfirst ⊢
  obtain ⟨tile, htile⟩ := (keeps_backgroundCycle (n % 8)).post H t
  rw [post_bind, hfirst]
  generalize post H (backgroundCycle (n % 8)) t = u at htile ⊢
  have hshift : u.chip.shift = t.chip.shift := by rw [htile]
  rw [post_bind, post_bind]
  refine AttrStep.congr ?_ hshift (hincs.post H _).symm
  by_cases hfill : n % 8 = 1
  · rw [if_neg (fun h : _ ≠ _ => h hfill), post_pure]
    by_cases h1 : n = 1
    · have hop : lineOp n = .hold := by rw [h1]; rfl
      rw [if_neg (show ¬(n % 8 = 1 ∧ n ≠ 1) from fun h => h.2 h1), post_pure, hop]
      exact attrStep_of_eq (by simp) rfl rfl
    · have hop : lineOp n = .fill (n / 8 + 1) := by
        rw [lineOp, if_pos hf, dotOp, if_neg (by omega), if_pos hfill]
      rw [if_pos ⟨hfill, h1⟩, hop]
      exact attrStep_shiftFill H u _
  · rw [if_neg (fun h : _ ∧ _ => hfill h.1), post_pure, if_pos hfill, lineOp_shift hf hfill]
    exact attrStep_shiftRun H u

/-- **The attribute registers after a dot** of a line that is rendered. -/
theorem attr_run (hline : s.chip.Rendered) :
    AttrStep (lineOp s.chip.dot) s.chip (post H run s).chip := by
  obtain ⟨t, ht, hshift⟩ := shift_run H s hline
  rw [shift_cycletab] at hshift
  by_cases hf : Fetching s.chip.dot
  · rw [if_pos hf] at hshift
    exact (attrStep_fetchCycle H t hf).congr (congrArg Ppu.shift ht) hshift.symm
  · rw [if_neg hf, ht] at hshift
    have hop : lineOp s.chip.dot = .hold := if_neg hf
    rw [hop]
    exact attrStep_of_eq (by simp) (congrArg Shift.alow hshift) (congrArg Shift.ahigh hshift)

end Attr

/-! ### Lines -/

section Line

variable {σ : Type} (H : Handler ppuSig σ) {s : Sys Ppu σ}

/-- Where the dots of a line lead. -/
abbrev along (s : Sys Ppu σ) (n : ℕ) : Sys Ppu σ := (post H run)^[n] s

theorem along_succ (s : Sys Ppu σ) (n : ℕ) : along H s (n + 1) = post H run (along H s n) :=
  Function.iterate_succ_apply' _ n s

theorem along_add (s : Sys Ppu σ) (m n : ℕ) : along H s (m + n) = along H (along H s m) n := by
  rw [Nat.add_comm]
  exact Function.iterate_add_apply _ n m s

variable (hline : s.chip.Rendered) (hdot : s.chip.dot = 0) (hroom : Room 341 s.chip)

include hdot hroom

theorem onLine_along {n : ℕ} (hn : n ≤ 340) : OnLine s.chip n (along H s n).chip :=
  onLine_iterate H hdot hroom (by omega) (by omega)

theorem position_along {n : ℕ} (hn : n ≤ 340) :
    (along H s n).chip.line = s.chip.line ∧ (along H s n).chip.dot = n :=
  (onLine_along H hdot hroom hn).position hdot hn

include hline

theorem rendered_along {n : ℕ} (hn : n ≤ 340) : (along H s n).chip.Rendered := by
  unfold Rendered
  rw [(position_along H hdot hroom hn).1]
  exact hline

/-- Nothing but the PPU changes along a line. -/
theorem env_along (hstill : Still H s.env) {n : ℕ} (hn : n ≤ 341) :
    (along H s n).env = s.env := by
  induction n with
  | zero => rfl
  | succ n ih =>
    have henv := ih (by omega)
    have hstill' : Still H (along H s n).env := by rwa [henv]
    rw [along_succ]
    exact (hstill'.env_run H (rendered_along H hline hdot hroom (by omega))).trans henv

/-- The pattern registers of a line that is rendered are a shift register. -/
theorem reg_along (pl : Plane) {n : ℕ} (hn : n ≤ 341) :
    regBits pl (along H s n).chip =
      cells 8 8 (fun k => latchBits pl (along H s (8 * (k - 1) + 1)).chip) lineOp
        (regBits pl s.chip) n := by
  apply eq_cells (f := fun n => regBits pl (along H s n).chip) rfl _ hn
  intro n hn
  have hrun := reg_run H (along H s n) pl (rendered_along H hline hdot hroom (by omega))
  rw [(position_along H hdot hroom (by omega)).2] at hrun
  rw [along_succ, hrun]
  unfold lineOp
  split_ifs with hf
  · unfold dotOp
    split_ifs with hhold hfill
    · rfl
    · have htile : 8 * (n / 8 + 1 - 1) + 1 = n := by omega
      show ShiftRegister.step 8 8 (fun _ => _) _ (.fill (n / 8 + 1)) = ShiftRegister.step 8 8 _ _ _
      unfold ShiftRegister.step
      dsimp only
      rw [htile]
    · rfl
  · rfl

/-- So is the low attribute register, but nothing is ever loaded into it. -/
theorem alow_along {n : ℕ} (hn : n ≤ 341) :
    alowBits (along H s n).chip =
      cells 0 0 (fun _ _ => false) lineOp (alowBits s.chip) n := by
  apply eq_cells (f := fun n => alowBits (along H s n).chip) rfl _ hn
  intro n hn
  have hrun := (attr_run H (along H s n) (rendered_along H hline hdot hroom (by omega))).alow
  rw [(position_along H hdot hroom (by omega)).2] at hrun
  rw [along_succ, hrun]

/-- **The attribute registers at the end of a line** are empty, whatever they held before. -/
theorem plain_end : Plain (along H s 341).chip := by
  have hstep (n : ℕ) (hn : n ≤ 340) :
      AttrStep (lineOp n) (along H s n).chip (along H s (n + 1)).chip := by
    have hrun := attr_run H (along H s n) (rendered_along H hline hdot hroom hn)
    rw [(position_along H hdot hroom hn).2] at hrun
    rwa [along_succ]
  -- fourteen shifts between the dots 322 and 336 empty a register of eight bits
  have hshift {n j : ℕ} (h : ∀ m < j, lineOp (n + m) = .shift) (hn : n + j ≤ 341) (i : ℕ) :
      alowBits (along H s (n + j)).chip i = alowBits (along H s n).chip (i + j) := by
    rw [alow_along H hline hdot hroom hn, alow_along H hline hdot hroom (by omega)]
    exact cells_of_shifts h i
  have hop {n : ℕ} (hn : 321 ≤ n ∧ n ≤ 340 ∧ n % 8 ≠ 1) : lineOp n = .shift :=
    lineOp_shift (Or.inr ⟨hn.1, hn.2.1⟩) hn.2.2
  have hfirst := hshift (n := 322) (j := 7) (fun m hm => hop ⟨by omega, by omega, by omega⟩)
    (by decide)
  have hsecond := hshift (n := 330) (j := 7) (fun m hm => hop ⟨by omega, by omega, by omega⟩)
    (by decide)
  have hfill : alowBits (along H s 330).chip = alowBits (along H s 329).chip := by
    rw [(hstep 329 (by decide)).alow, lineOp_fill (k := 41) (Or.inr ⟨by decide, by decide⟩),
      step_fill_none]
  have hzero (i : ℕ) : alowBits (along H s 337).chip i = false := by
    rw [hsecond i, hfill, hfirst]
    exact BitVec.getLsbD_of_ge _ _ (by omega)
  have hzero' (i : ℕ) : alowBits (along H s 338).chip i = false := by
    rw [(hstep 337 (by decide)).alow, lineOp_fill (k := 42) (Or.inr ⟨by decide, by decide⟩),
      step_fill_none]
    exact hzero i
  have hplain : Plain (along H s 339).chip := by
    have hlast := hstep 338 (by decide)
    rw [hop ⟨by decide, by decide, by decide⟩] at hlast
    have hlow (i : ℕ) : alowBits (along H s 339).chip i = false := by
      rw [hlast.alow]
      exact hzero' (i + 1)
    refine ⟨BitVec.eq_of_getLsbD_eq fun i _ => (hlow i).trans BitVec.getLsbD_zero.symm, ?_⟩
    intro i hi
    rw [hlast.ahigh i hi, if_pos rfl]
    exact hlow i
  exact (hstep 340 (by decide)).plain ((hstep 339 (by decide)).plain hplain)

/-- **The pattern registers at the end of a line** hold six bits of the tile fetched from dot 321 on
and the tile after it. -/
theorem reg_end (pl : Plane) (i : ℕ) : regBits pl (along H s 341).chip i =
    if i < 5 then latchBits pl (along H s 329).chip (i + 2)
    else if i < 13 then latchBits pl (along H s 337).chip (i - 5) else false := by
  have hop {n : ℕ} (hn : 321 ≤ n ∧ n ≤ 340 ∧ n % 8 ≠ 1) : lineOp n = .shift :=
    lineOp_shift (Or.inr ⟨hn.1, hn.2.1⟩) hn.2.2
  have hwide (n i : ℕ) (hi : 16 ≤ i) : regBits pl (along H s n).chip i = false :=
    BitVec.getLsbD_of_ge _ _ hi
  have hreg {n : ℕ} (hn : n ≤ 341) := reg_along H hline hdot hroom pl hn
  set W : ℕ → ℕ → Bool := fun k => latchBits pl (along H s (8 * (k - 1) + 1)).chip with hW
  set r := regBits pl s.chip
  have hlast : cells 8 8 W lineOp r 341 i =
      if 8 ≤ i + 3 ∧ i + 3 < 16 then W 43 (i + 3 - 8) else cells 8 8 W lineOp r 337 (i + 3) :=
    cells_of_fill (n := 337) (j := 3) (lineOp_fill (k := 42) (Or.inr ⟨by decide, by decide⟩))
      (fun m hm => hop ⟨by omega, by omega, by omega⟩) i
  have hbefore : cells 8 8 W lineOp r 337 (i + 3) =
      if 8 ≤ i + 3 + 7 ∧ i + 3 + 7 < 16 then W 42 (i + 3 + 7 - 8)
      else cells 8 8 W lineOp r 329 (i + 3 + 7) :=
    cells_of_fill (n := 329) (j := 7) (lineOp_fill (k := 41) (Or.inr ⟨by decide, by decide⟩))
      (fun m hm => hop ⟨by omega, by omega, by omega⟩) (i + 3)
  rw [hreg (le_refl 341), hlast, hbefore]
  by_cases h5 : i < 5
  · rw [if_neg (by omega), if_pos (by omega), if_pos h5, show i + 3 + 7 - 8 = i + 2 by omega]
  by_cases h13 : i < 13
  · rw [if_pos (by omega), if_neg h5, if_pos h13, show i + 3 - 8 = i - 5 by omega]
  · rw [if_neg (by omega), if_neg (by omega), if_neg h5, if_neg h13, ← hreg (by decide)]
    exact hwide 329 _ (by omega)

end Line

end Yanesemu.Ppu
