import Yanesemu.FieldLaws
import Yanesemu.Lib.Run
import Yanesemu.PpuRegisters
import Yanesemu.PpuScanline

/-!
# The scroll counters

The two increments of `core/ppu.cpp` as counters. `inc_v_horzpos` counts modulo 64 in five bits
and one bit apart from them. `inc_v_vertpos` counts modulo 480 in nine bits, as long as it starts
on one of the 30 rows of a name table; from below them it runs through to row 0 of the same name
table, and from there it counts.
-/

namespace Yanesemu.VramAddress

open Util

/-! ### The increments as operators of bit fields -/

section Operators

variable (v : VramAddress)

def coarseXField : Field 16 := ⟨0, 5, by decide, by decide, by decide⟩

def fineYField : Field 16 := ⟨12, 3, by decide, by decide, by decide⟩

theorem setCoarseX_add_one : setCoarseX v (coarseX v + 1) = BitField.preIncrement 0 5 v := rfl

theorem setFineY_add_one : setFineY v (fineY v + 1) = BitField.preIncrement 12 3 v := rfl

theorem sameOutside_setCoarseX : coarseXField.SameOutside v (setCoarseX v (coarseX v + 1)) := by
  rw [setCoarseX_add_one]
  exact (Field.actsAs_preIncrement (F := coarseXField) (by decide) v).2

theorem sameOutside_setFineY : fineYField.SameOutside v (setFineY v (fineY v + 1)) := by
  rw [setFineY_add_one]
  exact (Field.actsAs_preIncrement (F := fineYField) (by decide) v).2

end Operators

/-! ### The bits they do not touch -/

def HorzBit (i : ℕ) : Prop := i < 5 ∨ i = 10

def VertBit (i : ℕ) : Prop := 5 ≤ i ∧ i < 10 ∨ 11 ≤ i ∧ i < 15

section Bits

variable (v : VramAddress) (d : Uint64) {i : ℕ}

theorem getLsbD_setCoarseX (hi : 5 ≤ i) : (setCoarseX v d).getLsbD i = v.getLsbD i :=
  BitField.getLsbD_assign_of_not_mem (by decide) (by decide) v _ fun h => Nat.not_lt_of_le hi h.2

theorem getLsbD_setCoarseY (hi : ¬(5 ≤ i ∧ i < 10)) : (setCoarseY v d).getLsbD i = v.getLsbD i :=
  BitField.getLsbD_assign_of_not_mem (by decide) (by decide) v _ hi

theorem getLsbD_setFineY (hi : ¬(12 ≤ i ∧ i < 15)) : (setFineY v d).getLsbD i = v.getLsbD i :=
  BitField.getLsbD_assign_of_not_mem (by decide) (by decide) v _ hi

/-- Toggling one bit of `nt` leaves the other one. -/
theorem getLsbD_setNt_xor {m : Uint64} (hm : 10 ≤ i → i < 12 → m.getLsbD (i - 10) = false) :
    (setNt v (nt v ^^^ m)).getLsbD i = v.getLsbD i := by
  by_cases hin : 10 ≤ i ∧ i < 12
  · have hnt : (nt v).getLsbD (i - 10) = v.getLsbD i := by
      unfold nt
      rw [BitField.getLsbD_read (by decide)]
      show (decide (i - 10 < 2) && decide (10 + (i - 10) < 64) && v.getLsbD (10 + (i - 10))) = _
      rw [Nat.add_sub_cancel' hin.1, decide_eq_true (by omega), decide_eq_true (by omega)]
      rfl
    unfold setNt
    rw [BitField.getLsbD_assign (by decide) (by decide) _ _ (by omega)]
    show (if 10 ≤ i ∧ i < 12 then ((nt v ^^^ m).setWidth 16).getLsbD (i - 10) else _) = _
    rw [if_pos hin, BitVec.getLsbD_setWidth, BitVec.getLsbD_xor, hm hin.1 hin.2, Bool.xor_false,
      hnt, decide_eq_true (by omega), Bool.true_and]
  · exact BitField.getLsbD_assign_of_not_mem (by decide) (by decide) v _ hin

theorem getLsbD_incHorz (hi : ¬HorzBit i) : (incHorz v).getLsbD i = v.getLsbD i := by
  unfold HorzBit at hi
  unfold incHorz
  split_ifs
  · rw [getLsbD_setNt_xor, getLsbD_setCoarseX v _ (by omega)]
    intro h10 h12
    obtain rfl : i = 11 := by omega
    decide
  · exact sameOutside_setCoarseX v i fun h => hi (Or.inl h.2)

theorem getLsbD_incVert (hi : ¬VertBit i) : (incVert v).getLsbD i = v.getLsbD i := by
  unfold VertBit at hi
  unfold incVert
  dsimp only
  split_ifs
  · exact sameOutside_setFineY v i fun h => hi (Or.inr ⟨Nat.le_of_lt h.1, h.2⟩)
  · rw [getLsbD_setCoarseY _ _ (by omega), getLsbD_setNt_xor, getLsbD_setFineY v _ (by omega)]
    intro h10 h12
    obtain rfl : i = 10 := by omega
    decide
  · rw [getLsbD_setCoarseY _ _ (by omega), getLsbD_setFineY v _ (by omega)]
  · rw [getLsbD_setCoarseY _ _ (by omega), getLsbD_setFineY v _ (by omega)]

end Bits

/-! ### The vertical counter -/

/-- The row of the 480 that the two name tables one below the other have. -/
def Vert.row (p : Vert) : ℕ := 240 * p.nt + 8 * p.coarseY + p.fineY

/-- A row that is there. -/
def Vert.InTable (p : Vert) : Prop := p.nt < 2 ∧ p.coarseY < 30 ∧ p.fineY < 8

/-- One of the 16 rows below the name table. -/
def Vert.Below (p : Vert) : Prop := 30 ≤ p.coarseY ∧ p.coarseY < 32 ∧ p.fineY < 8

/-- The steps from below the name table to its row 0. -/
def Vert.toTop (p : Vert) : ℕ := 256 - (8 * p.coarseY + p.fineY)

theorem Vert.next_inTable (p : Vert) (h : p.InTable) :
    p.next.InTable ∧ p.next.row = (p.row + 1) % 480 := by
  obtain ⟨hnt, hrow, hfine⟩ := h
  unfold Vert.InTable Vert.row Vert.next
  split_ifs with h7 h29 h31 <;> dsimp only <;> omega

theorem Vert.row_lt {p : Vert} (h : p.InTable) : p.row < 480 := by
  obtain ⟨hnt, hrow, hfine⟩ := h
  unfold Vert.row
  omega

/-- From below the table a step leads on, and the last one to row 0 of the same table. -/
theorem Vert.next_below {p : Vert} (h : p.Below) :
    p.next.nt = p.nt ∧
      (1 < p.toTop → p.next.Below ∧ p.next.toTop = p.toTop - 1) ∧
      (p.toTop = 1 → p.next = ⟨p.nt, 0, 0⟩) := by
  obtain ⟨h30, h32, hfine⟩ := h
  unfold Vert.Below Vert.toTop Vert.next
  split_ifs with h7 h29 h31
  · dsimp only
    exact ⟨rfl, fun _ => by omega, fun _ => by omega⟩
  · omega
  · dsimp only
    exact ⟨rfl, fun _ => by omega, fun _ => rfl⟩
  · dsimp only
    exact ⟨rfl, fun _ => by omega, fun _ => by omega⟩

theorem Vert.toTop_pos {p : Vert} (h : p.Below) : 1 ≤ p.toTop := by
  obtain ⟨h30, h32, hfine⟩ := h
  unfold Vert.toTop
  omega

theorem Vert.iterate_below {p : Vert} (h : p.Below) {n : ℕ} (hn : n ≤ p.toTop) :
    (Vert.next^[n] p).nt = p.nt ∧
      (n < p.toTop → (Vert.next^[n] p).Below ∧ (Vert.next^[n] p).toTop = p.toTop - n) ∧
      (n = p.toTop → Vert.next^[n] p = ⟨p.nt, 0, 0⟩) := by
  induction n with
  | zero =>
    have := Vert.toTop_pos h
    exact ⟨rfl, fun _ => ⟨h, rfl⟩, fun h0 => by omega⟩
  | succ n ih =>
    obtain ⟨hnt, hbelow, -⟩ := ih (by omega)
    obtain ⟨hin, htop⟩ := hbelow (by omega)
    obtain ⟨hnt', hon, hlast⟩ := Vert.next_below hin
    rw [Function.iterate_succ_apply', hnt', hnt]
    refine ⟨rfl, fun hlt => ?_, fun heq => ?_⟩
    · obtain ⟨hin', htop'⟩ := hon (by omega)
      exact ⟨hin', by omega⟩
    · rw [hlast (by omega), hnt]

section Iterates

variable (v : VramAddress) (n : ℕ)

theorem horz_iterate_incHorz : horz (incHorz^[n] v) = (horz v + n) % 64 :=
  (EventRun.iterate_cyclic (I := fun _ => True) (fun v _ => ⟨trivial, horz_incHorz v⟩) trivial
    (horz_lt v) n).2

theorem vert_iterate_incVert : vert (incVert^[n] v) = Vert.next^[n] (vert v) :=
  (Function.Semiconj.iterate_right (f := vert) vert_incVert n) v

theorem getLsbD_iterate_incHorz {i : ℕ} (hi : ¬HorzBit i) :
    (incHorz^[n] v).getLsbD i = v.getLsbD i := by
  have hstep : (fun v : VramAddress => v.getLsbD i) ∘ incHorz = fun v => v.getLsbD i := by
    funext v
    exact getLsbD_incHorz v hi
  exact congrFun (Function.iterate_invariant hstep n) v

theorem getLsbD_iterate_incVert {i : ℕ} (hi : ¬VertBit i) :
    (incVert^[n] v).getLsbD i = v.getLsbD i := by
  have hstep : (fun v : VramAddress => v.getLsbD i) ∘ incVert = fun v => v.getLsbD i := by
    funext v
    exact getLsbD_incVert v hi
  exact congrFun (Function.iterate_invariant hstep n) v

end Iterates

end Yanesemu.VramAddress

namespace Yanesemu.Ppu

open Interaction VramAddress

variable {σ : Type} (H : Handler ppuSig σ) (s : Sys Ppu σ)

/-- The PPU with this fetch address, and nothing else changed. -/
def withAddr (s : Sys Ppu σ) (a : VramAddress) : Sys Ppu σ :=
  ⟨{ s.chip with vram.addr := a }, s.env⟩

theorem post_incVHorzpos (hshow : s.chip.io.bgShow = true) (a : VramAddress) :
    post H incVHorzpos (withAddr s a) = withAddr s (incHorz a) := by
  unfold incVHorzpos incHorz withAddr
  rw [post_modify]
  simp only [hshow, Bool.not_true, Bool.false_eq_true, if_false]
  split_ifs <;> rfl

theorem post_incVVertpos (hshow : s.chip.io.bgShow = true) (a : VramAddress) :
    post H incVVertpos (withAddr s a) = withAddr s (incVert a) := by
  unfold incVVertpos incVert withAddr
  rw [post_modify]
  simp only [hshow, Bool.not_true, Bool.false_eq_true, if_false]
  split_ifs <;> rfl

theorem iterate_incVHorzpos (hshow : s.chip.io.bgShow = true) (n : ℕ) :
    (post H incVHorzpos)^[n] s = withAddr s (incHorz^[n] s.chip.vram.addr) := by
  have hstep : Function.Semiconj (withAddr s) incHorz (post H incVHorzpos) := fun a =>
    (post_incVHorzpos H s hshow a).symm
  exact (hstep.iterate_right n s.chip.vram.addr).symm

theorem iterate_incVVertpos (hshow : s.chip.io.bgShow = true) (n : ℕ) :
    (post H incVVertpos)^[n] s = withAddr s (incVert^[n] s.chip.vram.addr) := by
  have hstep : Function.Semiconj (withAddr s) incVert (post H incVVertpos) := fun a =>
    (post_incVVertpos H s hshow a).symm
  exact (hstep.iterate_right n s.chip.vram.addr).symm

/-- **The scroll counters.** With the background shown, `n` horizontal increments add `n` modulo 64
to the counter of `coarse_x` and bit 0 of `nt`; `n` vertical increments from a row of a name table
add `n` modulo 480 to its number, and from below the table they come to row 0 of the same table in
the first round. Nothing but the bits of the counter changes. -/
theorem scroll_counters (hshow : s.chip.io.bgShow = true) (n : ℕ) :
    (∃ a, (post H incVHorzpos)^[n] s = withAddr s a ∧
      horz a = (horz s.chip.vram.addr + n % 64) % 64 ∧
      ∀ i, ¬HorzBit i → a.getLsbD i = s.chip.vram.addr.getLsbD i) ∧
    ∃ a, (post H incVVertpos)^[n] s = withAddr s a ∧
      (∀ i, ¬VertBit i → a.getLsbD i = s.chip.vram.addr.getLsbD i) ∧
      ((coarseY s.chip.vram.addr).toNat < 30 →
        (vert a).row = ((vert s.chip.vram.addr).row + n % 480) % 480 ∧ (coarseY a).toNat < 30) ∧
      (30 ≤ (coarseY s.chip.vram.addr).toNat → n ≤ (vert s.chip.vram.addr).toTop →
        (vert a).nt = (vert s.chip.vram.addr).nt ∧
        (n = (vert s.chip.vram.addr).toTop → vert a = ⟨(vert s.chip.vram.addr).nt, 0, 0⟩)) := by
  generalize hv : s.chip.vram.addr = v
  have hnt := toNat_nt_lt v
  have hrow := toNat_coarseY_lt v
  have hfine := toNat_fineY_lt v
  refine ⟨⟨incHorz^[n] v, hv ▸ iterate_incVHorzpos H s hshow n, ?_, ?_⟩,
    incVert^[n] v, hv ▸ iterate_incVVertpos H s hshow n, ?_, ?_, ?_⟩
  · rw [horz_iterate_incHorz, Nat.add_mod_mod]
  · exact fun i hi => getLsbD_iterate_incHorz v n hi
  · exact fun i hi => getLsbD_iterate_incVert v n hi
  · intro h30
    have hin : (vert v).InTable := ⟨by show (nt v).toNat / 2 < 2; omega, h30, hfine⟩
    obtain ⟨⟨-, hin', -⟩, hread⟩ :=
      EventRun.iterate_cyclic Vert.next_inTable hin (Vert.row_lt hin) n
    rw [← vert_iterate_incVert] at hin' hread
    exact ⟨by rw [hread, Nat.add_mod_mod], hin'⟩
  · intro h30 hn
    obtain ⟨hsame, -, htop⟩ := Vert.iterate_below ⟨h30, hrow, hfine⟩ hn
    rw [vert_iterate_incVert]
    exact ⟨hsame, htop⟩

/-- From row 255, the last below the table, one increment leads to row 0. -/
theorem scroll_counters_last :
    let s : Sys Ppu Unit := ⟨{ io := { bgShow := true }, vram := { addr := 0x73E0 } }, ()⟩
    s.chip.io.bgShow = true ∧ vert (post zeroBus incVVertpos s).chip.vram.addr = ⟨0, 0, 0⟩ := by
  intro s
  have hshow : s.chip.io.bgShow = true := rfl
  obtain ⟨-, a, ha, -, -, hbelow⟩ := scroll_counters zeroBus s hshow 1
  have ha' : post zeroBus incVVertpos s = withAddr s a := ha
  have htop : vert a = ⟨(vert s.chip.vram.addr).nt, 0, 0⟩ :=
    (hbelow (by decide) (by decide)).2 (by decide)
  have hnt : (vert s.chip.vram.addr).nt = 0 := by decide
  rw [ha']
  rw [hnt] at htop
  exact ⟨hshow, htop⟩

end Yanesemu.Ppu
