import Yanesemu.PpuTiming

/-!
# The scroll registers

PPUSCROLL and PPUADDR share one toggle and, with PPUCTRL, one temporary address. `ScrollRegs` is
that machine on its own: three of the registers drive it, reads of PPUSTATUS reset its toggle, and
every other call, dots included, leaves it alone (`scrollRegs_step`). What a program finds in
`vram` after its writes is computed on it.
-/

namespace Yanesemu.Ppu

open Interaction EventRun Util VramAddress

/-! ### The machine -/

structure ScrollRegs where
  /-- `io.scroll_latch`: the next write is a second one. -/
  latch : Bool
  tmp : VramAddress
  fineX : Uint8

/-- PPUSCROLL. -/
def ScrollRegs.scroll (r : ScrollRegs) (d : Uint8) : ScrollRegs :=
  if r.latch then
    { r with
      latch := false
      tmp := setFineY (setCoarseY r.tmp ((d >>> 3).setWidth 64)) ((d &&& 0x7).setWidth 64) }
  else
    { latch := true
      tmp := setCoarseX r.tmp ((d >>> 3).setWidth 64)
      fineX := d &&& 0x7 }

/-- The first write to PPUADDR replaces the bits 8 to 13 and clears bit 14. -/
def addrHigh (tmp : VramAddress) (d : Uint8) : VramAddress :=
  let tmp : VramAddress := (setbits (tmp.setWidth 64) 8 6 ((d &&& 0x3F).setWidth 64)).setWidth 16
  (setbit (tmp.setWidth 64) 14 false).setWidth 16

/-- The second one replaces the low byte. -/
def addrLow (tmp : VramAddress) (d : Uint8) : VramAddress :=
  (setbits (tmp.setWidth 64) 0 8 (d.setWidth 64)).setWidth 16

/-- PPUADDR. -/
def ScrollRegs.addr (r : ScrollRegs) (d : Uint8) : ScrollRegs :=
  { r with
    latch := !r.latch
    tmp := if r.latch then addrLow r.tmp d else addrHigh r.tmp d }

def ScrollRegs.call (r : ScrollRegs) : Call → ScrollRegs
  | .readreg w => if w.toNat = 0x2002 then { r with latch := false } else r
  | .writereg w d =>
    if w.toNat = 0x2000 then { r with tmp := setNt r.tmp ((d &&& 0x3).setWidth 64) }
    else if w.toNat = 0x2005 then r.scroll d
    else if w.toNat = 0x2006 then r.addr d
    else r
  | .run | .readregNoSideeff _ => r

theorem ScrollRegs.call_writereg_of_ne {w : Uint16} (h0 : w.toNat ≠ 0x2000)
    (h5 : w.toNat ≠ 0x2005) (h6 : w.toNat ≠ 0x2006) (r : ScrollRegs) (d : Uint8) :
    r.call (.writereg w d) = r := by
  rw [ScrollRegs.call, if_neg h0, if_neg h5, if_neg h6]

/-- The scroll registers of a PPU. -/
def scrollRegs (p : Ppu) : ScrollRegs := ⟨p.io.scrollLatch, p.vram.tmp, p.vram.fineX⟩

variable {σ : Type} (H : Handler ppuSig σ)

/-- Five bits are left after the shift. -/
theorem shift_and_mask (x : Uint8) : x >>> 3 &&& (0x1F : Uint8) = x >>> 3 := by
  have hx := x.isLt
  apply BitVec.eq_of_toNat_eq
  rw [BitVec.toNat_and, BitVec.toNat_ushiftRight, Nat.shiftRight_eq_div_pow]
  show x.toNat / 2 ^ 3 &&& 2 ^ 5 - 1 = x.toNat / 2 ^ 3
  rw [Nat.and_two_pow_sub_one_eq_mod]
  omega

theorem scrollRegs_readreg (s : Sys Ppu σ) (w : Uint16) :
    scrollRegs (post H (readreg w) s).chip = (scrollRegs s.chip).call (.readreg w) := by
  unfold readreg
  rw [post_bind, ScrollRegs.call]
  split
  · rename_i h
    rw [if_pos h]
    rfl
  · rename_i h
    rw [if_neg (by omega)]
    rfl
  · rename_i h
    rw [if_neg (by omega)]
    unfold readData
    simp only [post_bind, post_ite]
    split <;> rfl
  · rename_i h _ _
    rw [if_neg h]
    rfl

theorem scrollRegs_writereg (s : Sys Ppu σ) (w : Uint16) (d : Uint8) :
    scrollRegs (post H (writereg w d) s).chip = (scrollRegs s.chip).call (.writereg w d) := by
  unfold writereg
  rw [post_bind, post_modify]
  split
  · rename_i h
    rw [ScrollRegs.call, if_pos h]
    rfl
  · rw [ScrollRegs.call_writereg_of_ne (by omega) (by omega) (by omega)]
    rfl
  · rw [ScrollRegs.call_writereg_of_ne (by omega) (by omega) (by omega)]
    rfl
  · rw [ScrollRegs.call_writereg_of_ne (by omega) (by omega) (by omega)]
    rfl
  · rename_i h
    rw [ScrollRegs.call, if_neg (by omega), if_pos h]
    unfold writeScroll scrollRegs ScrollRegs.scroll
    rw [post_modify, shift_and_mask]
    cases s.chip.io.scrollLatch <;> simp
  · rename_i h
    rw [ScrollRegs.call, if_neg (by omega), if_neg (by omega), if_pos h]
    unfold writeAddr scrollRegs ScrollRegs.addr addrHigh addrLow
    rw [post_modify]
    cases s.chip.io.scrollLatch <;> simp
  · rw [ScrollRegs.call_writereg_of_ne (by omega) (by omega) (by omega)]
    rfl
  · rw [ScrollRegs.call_writereg_of_ne ‹_› ‹_› ‹_›]
    rfl

/-- **Simulation.** Each call does to the scroll registers what it does to the machine. -/
theorem scrollRegs_step (s : Sys Ppu σ) (c : Call) :
    scrollRegs (step H s c).chip = (scrollRegs s.chip).call c := by
  cases c with
  | run =>
    have hdrawn : Drawn s.chip.tick (post H run s).chip := (wp_post (wp_run s.chip) H).1
    rw [step_run, hdrawn]
    unfold tick dotted dotIo scrollRegs
    split_ifs <;> rfl
  | readreg w => rw [step_readreg, scrollRegs_readreg]
  | writereg w d => rw [step_writereg, scrollRegs_writereg]
  | readregNoSideeff w =>
    rw [step_readregNoSideeff, (wp_post (wp_readregNoSideeff w s.chip) H).1]
    rfl

theorem scrollRegs_after (s : Sys Ppu σ) (cs : List Call) :
    scrollRegs (after (step H) s cs).chip = after ScrollRegs.call (scrollRegs s.chip) cs :=
  view_after (fun s : Sys Ppu σ => scrollRegs s.chip) (scrollRegs_step H) s cs

/-! ### The toggle over a history -/

/-- What can happen to a PPU. -/
inductive Event
  | power
  | reset
  | call (c : Call)
  deriving DecidableEq, Repr

def happen (s : Sys Ppu σ) : Event → Sys Ppu σ
  | .power => post H power s
  | .reset => post H reset s
  | .call c => step H s c

/-- A write to PPUSCROLL or PPUADDR. -/
def Event.toggles : Event → Bool
  | .call (.writereg w _) => w.toNat = 0x2005 ∨ w.toNat = 0x2006
  | _ => false

/-- A read of PPUSTATUS, a power-up or a reset. -/
def Event.clears : Event → Bool
  | .power | .reset => true
  | .call (.readreg w) => w.toNat = 0x2002
  | .call _ => false

/-- The writes to PPUSCROLL and PPUADDR since the last event that clears. -/
def togglesSince (es : List Event) : ℕ :=
  (es.reverse.takeWhile fun e => !e.clears).countP Event.toggles

theorem togglesSince_concat (es : List Event) (e : Event) :
    togglesSince (es ++ [e]) =
      if e.clears then 0 else togglesSince es + if e.toggles then 1 else 0 := by
  unfold togglesSince
  rw [List.reverse_append, List.reverse_singleton, List.singleton_append, List.takeWhile_cons]
  cases he : e.clears <;> simp [List.countP_cons]

/-- What an event does to the toggle. -/
theorem latch_happen (s : Sys Ppu σ) (e : Event) :
    (happen H s e).chip.io.scrollLatch =
      if e.clears then false else s.chip.io.scrollLatch ^^ e.toggles := by
  cases e with
  | power => rfl
  | reset => rfl
  | call c =>
    have hlatch := congrArg ScrollRegs.latch (scrollRegs_step H s c)
    rw [show (happen H s (.call c)).chip.io.scrollLatch = (scrollRegs (step H s c).chip).latch
      from rfl, hlatch]
    unfold scrollRegs
    cases c with
    | run => simp [ScrollRegs.call, Event.clears, Event.toggles]
    | readreg w =>
      by_cases hw : w.toNat = 0x2002 <;> simp [ScrollRegs.call, Event.clears, Event.toggles, hw]
    | writereg w d =>
      by_cases h0 : w.toNat = 0x2000
      · simp [ScrollRegs.call, Event.clears, Event.toggles, h0]
      by_cases h5 : w.toNat = 0x2005
      · cases s.chip.io.scrollLatch <;>
          simp [ScrollRegs.call, ScrollRegs.scroll, Event.clears, Event.toggles, h5]
      by_cases h6 : w.toNat = 0x2006
      · simp [ScrollRegs.call, ScrollRegs.addr, Event.clears, Event.toggles, h6]
      · simp [ScrollRegs.call, Event.clears, Event.toggles, h0, h5, h6]
    | readregNoSideeff w => simp [ScrollRegs.call, Event.clears, Event.toggles]

/-- The toggle tells the parity of the writes since it was cleared. -/
theorem latch_eq_parity (s : Sys Ppu σ) (es : List Event) :
    (after (happen H) (post H power s) es).chip.io.scrollLatch =
      decide (togglesSince es % 2 = 1) := by
  induction es using List.reverseRecOn with
  | nil => rfl
  | append_singleton es e ih =>
    rw [after_concat, latch_happen, togglesSince_concat, ih]
    cases e.clears
    · cases e.toggles
      · simp
      · rcases Nat.mod_two_eq_zero_or_one (togglesSince es) with h | h <;>
          simp [h, Nat.add_mod]
    · rfl

/-! ### The address -/

theorem getLsbD_addrLow (tmp : VramAddress) (d : Uint8) {i : ℕ} (hi : i < 16) :
    (addrLow tmp d).getLsbD i = if i < 8 then d.getLsbD i else tmp.getLsbD i := by
  unfold addrLow
  rw [getLsbD_setbits_setWidth (by decide) (by decide) _ _ hi]
  by_cases h : i < 8
  · have h64 : i < 64 := by omega
    rw [if_pos h, if_pos ⟨Nat.zero_le i, by simpa using h⟩]
    simp [h64]
  · rw [if_neg h, if_neg (by simpa using h)]

theorem getLsbD_addrHigh (tmp : VramAddress) (d : Uint8) {i : ℕ} (hi : i < 16) :
    (addrHigh tmp d).getLsbD i =
      if 8 ≤ i ∧ i < 14 then d.getLsbD (i - 8) else !decide (i = 14) && tmp.getLsbD i := by
  unfold addrHigh setbit
  rw [getLsbD_setbits_setWidth (by decide) (by decide) _ _ hi,
    getLsbD_setbits_setWidth (by decide) (by decide) _ _ hi]
  show (if 14 ≤ i ∧ i < 15 then (0#64).getLsbD (i - 14)
    else if 8 ≤ i ∧ i < 14 then ((d &&& 0x3F).setWidth 64).getLsbD (i - 8)
    else tmp.getLsbD i) = _
  by_cases h14 : i = 14
  · subst h14
    simp
  · by_cases h : 8 ≤ i ∧ i < 14
    · rw [if_neg (by omega), if_pos h, if_pos h]
      have h8 : i - 8 < 6 := by omega
      generalize i - 8 = j at h8
      interval_cases j <;> simp
    · rw [if_neg (by omega), if_neg h, if_neg h]
      simp [h14]

/-- Two writes to PPUADDR replace the whole address. -/
theorem addrLow_addrHigh {tmp : VramAddress} (htmp : tmp.getLsbD 15 = false) (h l : Uint8) :
    addrLow (addrHigh tmp h) l = ((h &&& 0x3F).setWidth 16 <<< 8) ||| l.setWidth 16 := by
  apply BitVec.eq_of_getLsbD_eq
  intro i hi
  rw [getLsbD_addrLow _ _ hi, getLsbD_addrHigh _ _ hi]
  by_cases h15 : i = 15
  · subst h15
    simpa using htmp
  · interval_cases i <;> simp at h15 ⊢

/-- No register can set bit 15 of the temporary address. -/
theorem ScrollRegs.call_bit15 {r : ScrollRegs} (hr : r.tmp.getLsbD 15 = false) (c : Call) :
    (r.call c).tmp.getLsbD 15 = false := by
  have hlow (d : Uint8) : (addrLow r.tmp d).getLsbD 15 = false := by
    rw [getLsbD_addrLow _ _ (by decide)]
    exact hr
  have hhigh (d : Uint8) : (addrHigh r.tmp d).getLsbD 15 = false := by
    rw [getLsbD_addrHigh _ _ (by decide)]
    simpa using hr
  cases c with
  | run => exact hr
  | readregNoSideeff w => exact hr
  | readreg w =>
    rw [ScrollRegs.call]
    split
    · exact hr
    · exact hr
  | writereg w d =>
    rw [ScrollRegs.call]
    split
    · rw [bit15_setNt, hr]
    split
    · unfold ScrollRegs.scroll
      split
      · rw [bit15_setFineY, bit15_setCoarseY, hr]
      · rw [bit15_setCoarseX, hr]
    split
    · unfold ScrollRegs.addr
      dsimp only
      split
      · exact hlow d
      · exact hhigh d
    · exact hr

theorem bit15_step {s : Sys Ppu σ} (hs : s.chip.vram.tmp.getLsbD 15 = false) (c : Call) :
    (step H s c).chip.vram.tmp.getLsbD 15 = false := by
  have hcall := ScrollRegs.call_bit15 (r := scrollRegs s.chip) hs c
  rwa [← scrollRegs_step H] at hcall

theorem bit15_power (s : Sys Ppu σ) : (post H power s).chip.vram.tmp.getLsbD 15 = false := by
  rw [show (post H power s).chip.vram.tmp = 0 from rfl]
  decide

theorem bit15_reachable (s : Sys Ppu σ) (es : List Event) :
    (after (happen H) (post H power s) es).chip.vram.tmp.getLsbD 15 = false := by
  refine after_inv (I := fun s : Sys Ppu σ => s.chip.vram.tmp.getLsbD 15 = false)
    ?_ (bit15_power H s) es
  intro t e ht
  cases e with
  | power => exact bit15_power H t
  | reset => exact ht
  | call c => exact bit15_step H ht c

/-! ### What a program finds after its writes -/

/-- The calls that drive the machine. -/
def related : Call → Bool
  | .readreg w => w.toNat = 0x2002
  | .writereg w _ => w.toNat = 0x2000 ∨ w.toNat = 0x2005 ∨ w.toNat = 0x2006
  | .run | .readregNoSideeff _ => false

theorem ScrollRegs.call_of_unrelated (r : ScrollRegs) (c : Call) (hc : related c = false) :
    r.call c = r := by
  cases c with
  | run => rfl
  | readregNoSideeff w => rfl
  | readreg w =>
    rw [ScrollRegs.call, if_neg (by simpa [related] using hc)]
  | writereg w d =>
    simp only [related, decide_eq_false_iff_not, not_or] at hc
    exact r.call_writereg_of_ne hc.1 hc.2.1 hc.2.2 d

/-- Only the related calls count. -/
theorem scrollRegs_after_filter (s : Sys Ppu σ) (cs : List Call) :
    scrollRegs (after (step H) s cs).chip =
      after ScrollRegs.call (scrollRegs s.chip) (cs.filter related) := by
  rw [scrollRegs_after, after_filter ScrollRegs.call_of_unrelated]

/-- The second write to PPUADDR copies the temporary address. -/
theorem addr_second_write {s : Sys Ppu σ} (hs : s.chip.io.scrollLatch = true) (l : Uint8) :
    (step H s (.writereg 0x2006 l)).chip.vram.addr = addrLow s.chip.vram.tmp l := by
  simp [writereg, writeAddr, addrLow, hs]

theorem addr_after_writes (s : Sys Ppu σ) (htmp : s.chip.vram.tmp.getLsbD 15 = false)
    {mid : List Call} {h : Uint8} (hmid : mid.filter related = [.writereg 0x2006 h]) (l : Uint8) :
    (after (step H) s (.readreg 0x2002 :: mid ++ [.writereg 0x2006 l])).chip.vram.addr =
      ((h &&& 0x3F).setWidth 16 <<< 8) ||| l.setWidth 16 := by
  have hregs := scrollRegs_after_filter H s (.readreg 0x2002 :: mid)
  rw [List.filter_cons_of_pos rfl, hmid] at hregs
  have hlatch := congrArg ScrollRegs.latch hregs
  have htmp' := congrArg ScrollRegs.tmp hregs
  rw [after_concat, addr_second_write H hlatch]
  show addrLow (scrollRegs (after (step H) s (.readreg 0x2002 :: mid)).chip).tmp l = _
  rw [htmp']
  exact addrLow_addrHigh htmp h l

theorem toNat_shift_lt (x : Uint8) : ((x >>> 3).setWidth 64).toNat < 32 := by
  have := x.isLt
  rw [BitVec.toNat_setWidth_of_le (by decide), BitVec.toNat_ushiftRight,
    Nat.shiftRight_eq_div_pow]
  omega

theorem toNat_mask_lt {x m : Uint8} {n : ℕ} (hm : m.toNat < n) :
    ((x &&& m).setWidth 64).toNat < n := by
  rw [BitVec.toNat_setWidth_of_le (by decide), BitVec.toNat_and]
  exact Nat.and_le_right.trans_lt hm

/-- The three writes that set a scroll position; PPUCTRL may come anywhere. -/
def scrollWrites (c x y : Uint8) : List (List Call) :=
  [[.writereg 0x2000 c, .writereg 0x2005 x, .writereg 0x2005 y],
    [.writereg 0x2005 x, .writereg 0x2000 c, .writereg 0x2005 y],
    [.writereg 0x2005 x, .writereg 0x2005 y, .writereg 0x2000 c]]

/-- The scroll position is that of the three bytes. -/
structure Scrolled (c x y : Uint8) (r : ScrollRegs) : Prop where
  nt : nt r.tmp = (c &&& 3).setWidth 64
  coarseX : coarseX r.tmp = (x >>> 3).setWidth 64
  coarseY : coarseY r.tmp = (y >>> 3).setWidth 64
  fineY : fineY r.tmp = (y &&& 7).setWidth 64
  fineX : r.fineX = x &&& 7

/-- The fields do not overlap, so the order of the assignments does not matter. -/
theorem fields_of_assignments (v tmp : VramAddress) {C X Y F : Uint64} (hC : C.toNat < 4)
    (hX : X.toNat < 32) (hY : Y.toNat < 32) (hF : F.toNat < 8)
    (htmp : tmp = setFineY (setCoarseY (setCoarseX (setNt v C) X) Y) F ∨
      tmp = setFineY (setCoarseY (setNt (setCoarseX v X) C) Y) F ∨
      tmp = setNt (setFineY (setCoarseY (setCoarseX v X) Y) F) C) :
    nt tmp = C ∧ coarseX tmp = X ∧ coarseY tmp = Y ∧ fineY tmp = F := by
  rcases htmp with rfl | rfl | rfl <;> refine ⟨?_, ?_, ?_, ?_⟩ <;>
    simp [nt_setNt, coarseX_setCoarseX, coarseY_setCoarseY, fineY_setFineY, hC, hX, hY, hF]

theorem scrolled_after_writes (s : Sys Ppu σ) {c x y : Uint8} {cs : List Call}
    (hcs : cs.filter related ∈ scrollWrites c x y) :
    Scrolled c x y (scrollRegs (after (step H) s (.readreg 0x2002 :: cs)).chip) := by
  have hfields (tmp : VramAddress) := fields_of_assignments s.chip.vram.tmp tmp
    (toNat_mask_lt (x := c) (m := 3) (by decide)) (toNat_shift_lt x) (toNat_shift_lt y)
    (toNat_mask_lt (x := y) (m := 7) (by decide))
  rw [scrollRegs_after_filter, List.filter_cons_of_pos rfl]
  simp only [scrollWrites, List.mem_cons, List.not_mem_nil, or_false] at hcs
  rcases hcs with h | h | h
  · obtain ⟨hnt, hx, hy, hf⟩ := hfields _ (Or.inl rfl)
    rw [h]
    exact ⟨hnt, hx, hy, hf, rfl⟩
  · obtain ⟨hnt, hx, hy, hf⟩ := hfields _ (Or.inr (Or.inl rfl))
    rw [h]
    exact ⟨hnt, hx, hy, hf, rfl⟩
  · obtain ⟨hnt, hx, hy, hf⟩ := hfields _ (Or.inr (Or.inr rfl))
    rw [h]
    exact ⟨hnt, hx, hy, hf, rfl⟩

/-- **Scroll registers.** After any history since power: the toggle is the parity of the writes to
PPUSCROLL and PPUADDR since it was last cleared; a read of PPUSTATUS and two writes to PPUADDR
set the address to these bytes; and a read of PPUSTATUS, a write to PPUCTRL and two to PPUSCROLL
set the scroll position, whatever unrelated calls come in between. -/
theorem scroll_registers (s : Sys Ppu σ) (es : List Event) :
    let t := after (happen H) (post H power s) es
    t.chip.io.scrollLatch = decide (togglesSince es % 2 = 1) ∧
    (∀ (mid : List Call) (h l : Uint8), mid.filter related = [.writereg 0x2006 h] →
      (after (step H) t (.readreg 0x2002 :: mid ++ [.writereg 0x2006 l])).chip.vram.addr =
        ((h &&& 0x3F).setWidth 16 <<< 8) ||| l.setWidth 16) ∧
    ∀ (cs : List Call) (c x y : Uint8), cs.filter related ∈ scrollWrites c x y →
      Scrolled c x y (scrollRegs (after (step H) t (.readreg 0x2002 :: cs)).chip) := by
  intro t
  refine ⟨latch_eq_parity H s es, ?_, ?_⟩
  · intro mid h l hmid
    exact addr_after_writes H t (bit15_reachable H s es) hmid l
  · intro cs c x y hcs
    exact scrolled_after_writes H t hcs

end Yanesemu.Ppu
