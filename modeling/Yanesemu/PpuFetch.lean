import Yanesemu.Frame
import Yanesemu.PpuScanline

/-!
# Fetching a tile

The eight dots of a fetch group read the four bytes of one tile, on its even dots. On an
environment that reads and pixels leave alone (`Still`), a dot does to the latches what the step
of the pipeline does (`run_tile`); the fetch address does not move before the last dot of the
group is over, so all four bytes are of the tile the group starts with (`InGroup`).

`ppu_iterate` takes the results from the PPU to the emulator, which has the memory.
-/

namespace Yanesemu.Ppu

open Interaction EventRun Util VramAddress

variable {σ : Type} (H : Handler ppuSig σ)

/-! ### The tile of a dot -/

/-- Looking does not change the environment `e`. -/
def Still (e : σ) : Prop := ∀ o, Looks o → (H o e).2 = e

/-- What the bus reads. -/
def mem (e : σ) (a : Uint16) : Uint8 := (H (.read a) e).1

theorem Still.env_post {α : Type} {m : PpuM α} {s : Sys Ppu σ} (h : Still H s.env)
    (hm : ∀ o ∈ asked H m s, Looks o) : (post H m s).env = s.env := by
  have hop (o : PpuOp) (e : σ) (ho : Looks o) : e = s.env → (H o e).2 = s.env := by
    rintro rfl
    exact h o ho
  exact post_env_along (R := fun a b => a = s.env → b = s.env) (fun _ h => h)
    (fun _ _ _ hab hbc ha => hbc (hab ha)) hop hm rfl

/-- What comes after the fetch in a dot. -/
theorem keeps_rest (n : ℕ) : Keeps Looks SameTile (do
    (if n % 8 = 1 ∧ n ≠ 1 then shiftFill else pure ())
    (if n % 8 ≠ 1 then shiftRun else pure ())
    (if n % 8 = 0 ∧ n ≠ 256 then incVHorzpos else pure ())
    (if n = 256 then incVVertpos else pure ())) := by
  have hpure : Keeps Looks SameTile (pure () : PpuM Unit) := Keeps.pure sameTile_self ()
  have hshift (p p' : Ppu) : OnlyShift p p' → SameTile p p' := by
    rintro ⟨sh, rfl⟩
    rfl
  have haddr (p p' : Ppu) : OnlyAddr p p' → SameTile p p' := by
    rintro ⟨a, rfl⟩
    rfl
  have hfill : Keeps Looks SameTile shiftFill :=
    keeps_shiftFill.mono (fun _ ⟨_, ho⟩ => ho ▸ trivial) hshift
  have hrun : Keeps Looks SameTile shiftRun := keeps_shiftRun.mono (fun _ => False.elim) hshift
  have hhorz : Keeps Looks SameTile incVHorzpos :=
    keeps_incVHorzpos.mono (fun _ => False.elim) haddr
  have hvert : Keeps Looks SameTile incVVertpos :=
    keeps_incVVertpos.mono (fun _ => False.elim) haddr
  refine Keeps.bind SameTile.trans (Keeps.ite hfill hpure) fun _ => ?_
  refine Keeps.bind SameTile.trans (Keeps.ite hrun hpure) fun _ => ?_
  exact Keeps.bind SameTile.trans (Keeps.ite hhorz hpure) fun _ => Keeps.ite hvert hpure

theorem tile_fetchCycle {s : Sys Ppu σ} (h : Still H s.env) (n : ℕ) :
    (post H (fetchCycle n) s).chip.tile = (post H (backgroundCycle (n % 8)) s).chip.tile := by
  have hout : Keeps Looks Eq (if 4 ≤ n ∧ n ≤ 256 then output else pure ()) :=
    Keeps.ite keeps_output (Keeps.pure (fun _ => rfl) ())
  have hpost : post H (if 4 ≤ n ∧ n ≤ 256 then output else pure ()) s = s :=
    Sys.ext (hout.post H s).symm (h.env_post H (hout.of_asked H s))
  unfold fetchCycle
  rw [post_bind, hpost, post_bind]
  exact (keeps_rest n).post H _

theorem tile_cycletab {s : Sys Ppu σ} (h : Still H s.env) {n : ℕ} (hf : Fetching n) :
    (post H (cycletab n) s).chip.tile = (post H (backgroundCycle (n % 8)) s).chip.tile := by
  have hidle : ¬(n = 0 ∨ (258 ≤ n ∧ n ≤ 320)) := by
    unfold Fetching at hf
    omega
  have hcopy : Keeps (fun _ => False) OnlyAddr (if n = 257 then copyVHorzpos else pure ()) :=
    Keeps.ite keeps_copyVHorzpos (Keeps.pure (fun p => ⟨p.vram.addr, rfl⟩) ())
  unfold cycletab ccycle
  rw [if_neg hidle, if_pos hf, post_bind]
  obtain ⟨a, ha⟩ := hcopy.post H (post H (fetchCycle n) s)
  rw [ha]
  exact tile_fetchCycle H h n

/-- **The tile after a dot** is what the step of the pipeline leaves. -/
theorem run_tile {s : Sys Ppu σ} (h : Still H s.env) (hline : s.chip.Rendered)
    (hf : Fetching s.chip.dot) :
    (post H run s).chip.tile = (post H (backgroundCycle (s.chip.dot % 8)) s).chip.tile := by
  have hassert : post H (assert (decide (s.chip.dot ≤ 340))) s = s :=
    Sys.ext rfl (h (.assert _) trivial)
  have htab := tile_cycletab H h hf
  have hrun : (post H run s).chip.tile = (post H (lcycle s.chip.line s.chip.dot) s).chip.tile := by
    unfold run
    rw [post_bind, val_get, post_get, post_bind, post_bind, post_modify, post_modify]
  rw [hrun]
  unfold lcycle
  rw [post_bind, hassert]
  by_cases h240 : s.chip.line < 240
  · rw [if_pos h240, htab]
  · have h261 : s.chip.line = 261 := by
      rcases hline with hline | hline <;> omega
    rw [if_neg h240, if_neg (by omega), if_pos h261, post_bind]
    exact Eq.trans ((keeps_preRender _).post H _) htab

theorem Still.env_run {s : Sys Ppu σ} (h : Still H s.env) (hline : s.chip.Rendered) :
    (post H run s).env = s.env := by
  refine h.env_post H ?_
  intro o ho
  rcases (wp_post (wp_run s.chip) H).2 o ho with hdraw | ⟨hv, -⟩
  · cases o <;> first | exact trivial | exact hdraw.elim
  · have := hv.1
    rcases hline with hline | hline <;> omega

/-! ### The four bytes -/

/-- The address of the attribute byte, with the fields put together. -/
def attrByte (v : VramAddress) : Uint16 :=
  (0x23C0 ||| nt v <<< 10 ||| (coarseY v >>> 2) <<< 3 ||| coarseX v >>> 2).setWidth 16

/-- The address of the low byte of a row of the tile `t`. -/
def rowByte (bgPtAddr : Bool) (t : Uint8) (v : VramAddress) : Uint16 :=
  ofBool 16 bgPtAddr <<< 12 ||| t.setWidth 16 <<< 4 ||| (fineY v).setWidth 16

/-- The latches after the step `k` of the pipeline. -/
def fetched (M : Uint16 → Uint8) (p : Ppu) : ℕ → Tile
  | 2 => { p.tile with nt := M (0x2000 ||| p.vram.addr &&& 0x0FFF) }
  | 4 => { p.tile with attr := M (attrAddr p.vram.addr) }
  | 6 => { p.tile with low := M (patternAddr p 0) }
  | 0 => { p.tile with high := M (patternAddr p 1) }
  | _ => p.tile

theorem tile_backgroundCycle (s : Sys Ppu σ) (k : ℕ) :
    (post H (backgroundCycle k) s).chip.tile = fetched (mem H s.env) s.chip k := by
  unfold backgroundCycle
  split
  all_goals first
    | rfl
    | rw [fetched] <;> first | rfl | assumption

theorem shifted_row : ∀ n < 32, ((BitVec.ofNat 64 n).setWidth 16 &&& 0x1C) <<< 1 =
    (BitVec.ofNat 64 n >>> 2 <<< 3).setWidth 16 := by decide

theorem shifted_column : ∀ n < 32, ((BitVec.ofNat 64 n).setWidth 16 &&& 0x1C) >>> 2 =
    (BitVec.ofNat 64 n >>> 2).setWidth 16 := by decide

/-- The masks of the source drop the same two bits as the shifts. -/
theorem attrAddr_eq (v : VramAddress) : attrAddr v = attrByte v := by
  have hrow := shifted_row _ (toNat_coarseY_lt v)
  have hcol := shifted_column _ (toNat_coarseX_lt v)
  rw [BitVec.ofNat_toNat, BitVec.setWidth_eq] at hrow hcol
  have hnt : (nt v).setWidth 16 <<< 10 = (nt v <<< 10).setWidth 16 := by
    rcases nt_cases v with h | h | h | h <;> rw [h] <;> rfl
  unfold attrAddr attrByte
  rw [hrow, hcol, hnt, BitVec.setWidth_or, BitVec.setWidth_or, BitVec.setWidth_or]
  rfl

theorem patternAddr_low (p : Ppu) :
    patternAddr p 0 = rowByte p.io.bgPtAddr p.tile.nt p.vram.addr := by
  have hzero (x : Uint16) : x ||| (0 : Uint16) <<< 3 = x := BitVec.or_zero
  unfold patternAddr rowByte
  rw [hzero]

/-- The bit of the plane is clear: the row of a tile is below it and the tile above. -/
theorem rowByte_and_eight (bgPtAddr : Bool) (t : Uint8) (v : VramAddress) :
    rowByte bgPtAddr t v &&& 8 = 0 := by
  have hfine : (fineY v).getLsbD 3 = false :=
    Nat.testBit_lt_two_pow (Nat.lt_of_lt_of_le (toNat_fineY_lt v) (by decide))
  have hbit : (rowByte bgPtAddr t v).getLsbD 3 = false := by
    unfold rowByte
    simpa using hfine
  rw [show (8 : Uint16) = BitVec.twoPow 16 3 from rfl, BitVec.and_twoPow, hbit]
  rfl

/-- The planes of a tile are eight bytes apart. -/
theorem patternAddr_high (p : Ppu) :
    patternAddr p 1 = rowByte p.io.bgPtAddr p.tile.nt p.vram.addr + 8 := by
  rw [BitVec.add_eq_or_of_and_eq_zero _ _ (rowByte_and_eight _ _ _)]
  unfold patternAddr rowByte
  rw [BitVec.or_assoc, BitVec.or_assoc, BitVec.or_assoc, BitVec.or_assoc,
    BitVec.or_comm ((1 : Uint16) <<< 3)]
  rfl

/-! ### A fetch group -/

/-- The dots of the fetch group `k` are `8 * k + 1` to `8 * k + 8`. -/
def Group (k : ℕ) : Prop := k ≤ 31 ∨ k = 40 ∨ k = 41

/-- After `i` dots of a group the latches hold the bytes read so far, of the tile at `v`. -/
structure Latched (M : Uint16 → Uint8) (bgPtAddr : Bool) (v : VramAddress) (i : ℕ) (t : Tile) :
    Prop where
  nt : 2 ≤ i → t.nt = M (0x2000 ||| v &&& 0x0FFF)
  attr : 4 ≤ i → t.attr = M (attrByte v)
  low : 6 ≤ i → t.low = M (rowByte bgPtAddr t.nt v)
  high : 8 ≤ i → t.high = M (rowByte bgPtAddr t.nt v + 8)

/-- The even dots read a byte each, the odd ones nothing. -/
theorem Latched.step {M : Uint16 → Uint8} {p : Ppu} {i : ℕ}
    (h : Latched M p.io.bgPtAddr p.vram.addr i p.tile) (hi : i ≤ 7) :
    Latched M p.io.bgPtAddr p.vram.addr (i + 1) (fetched M p ((i + 1) % 8)) := by
  have hcases : i = 1 ∨ i = 3 ∨ i = 5 ∨ i = 7 ∨ i % 2 = 0 := by omega
  rcases hcases with rfl | rfl | rfl | rfl | heven
  · exact ⟨fun _ => rfl, by omega, by omega, by omega⟩
  · exact ⟨fun _ => h.nt (by omega), fun _ => congrArg M (attrAddr_eq _), by omega, by omega⟩
  · exact ⟨fun _ => h.nt (by omega), fun _ => h.attr (by omega),
      fun _ => congrArg M (patternAddr_low p), by omega⟩
  · exact ⟨fun _ => h.nt (by omega), fun _ => h.attr (by omega), fun _ => h.low (by omega),
      fun _ => congrArg M (patternAddr_high p)⟩
  · have hodd : fetched M p ((i + 1) % 8) = p.tile := by
      rw [fetched] <;> omega
    rw [hodd]
    exact ⟨fun _ => h.nt (by omega), fun _ => h.attr (by omega), fun _ => h.low (by omega),
      fun _ => h.high (by omega)⟩

/-- `q` is what the first `i` dots of a fetch group that starts in `p` lead to. -/
structure InGroup (M : Uint16 → Uint8) (p : Ppu) (i : ℕ) (q : Ppu) : Prop where
  cycles : q.cycles.toNat = p.cycles.toNat + i
  lines : q.lines = p.lines
  bgPtAddr : q.io.bgPtAddr = p.io.bgPtAddr
  addr : i ≤ 7 → q.vram.addr = p.vram.addr
  tile : Latched M p.io.bgPtAddr p.vram.addr i q.tile

theorem InGroup.position {M : Uint16 → Uint8} {p q : Ppu} {i : ℕ} (h : InGroup M p i q)
    (hdot : p.dot + i ≤ 340) : q.line = p.line ∧ q.dot = p.dot + i := by
  unfold line dot at *
  rw [h.cycles, h.lines]
  omega

/-- On the first seven dots of a group the fetch address stays. -/
theorem dotAddr_of_not_last {line n : ℕ} (hf : Fetching n) (hn : n % 8 ≠ 0) (v tmp : VramAddress) :
    dotAddr line n v tmp = v := by
  have hcycle : cycleAddr n v tmp = v := by
    unfold Fetching at hf
    unfold cycleAddr
    rw [if_neg (by omega), if_neg (by omega), if_neg fun h => hn h.1]
  have hcopy : ¬(280 ≤ n ∧ n ≤ 304) := by
    unfold Fetching at hf
    omega
  unfold dotAddr
  rw [hcycle, if_neg hcopy, ite_self, ite_self]

theorem bgPtAddr_run (s : Sys Ppu σ) : (post H run s).chip.io.bgPtAddr = s.chip.io.bgPtAddr := by
  have hdrawn : Drawn s.chip.tick (post H run s).chip := (wp_post (wp_run s.chip) H).1
  rw [hdrawn.io]
  unfold tick dotted dotIo
  split_ifs <;> rfl

/-- A dot goes on in its group. -/
theorem InGroup.run {M : Uint16 → Uint8} {p : Ppu} {k i : ℕ} {s : Sys Ppu σ}
    (h : InGroup M p i s.chip) (hk : Group k) (hdot : p.dot = 8 * k + 1) (hline : p.Rendered)
    (hroom : Room 8 p) (hi : i ≤ 7) (hstill : Still H s.env) (hM : mem H s.env = M) :
    InGroup M p (i + 1) (post H run s).chip := by
  unfold Group at hk
  obtain ⟨hline', hdot'⟩ := h.position (by omega)
  have hf : Fetching s.chip.dot := by
    rw [hdot', hdot]
    unfold Fetching
    omega
  have hskip : ¬(s.chip.AtFrameEnd ∧ s.chip.oddFrame = true) := fun hskip => by
    have := hskip.1.2
    omega
  have hroom' : Room (7 - i + 1) s.chip := by
    obtain ⟨hc, hl⟩ := hroom
    unfold Room
    rw [h.cycles, h.lines]
    omega
  have hrendered : s.chip.Rendered := by
    unfold Rendered at *
    rw [hline']
    exact hline
  obtain ⟨hcycles, hlines⟩ := run_counters H hskip hroom'
  have htile := (run_tile H hstill hrendered hf).trans (tile_backgroundCycle H s _)
  have haddr := h.addr hi
  have hmod : s.chip.dot % 8 = (i + 1) % 8 := by omega
  rw [hM, hmod] at htile
  refine ⟨?_, ?_, (bgPtAddr_run H s).trans h.bgPtAddr, ?_, ?_⟩
  · rw [hcycles, h.cycles, Nat.add_assoc]
  · rw [if_neg (by omega)] at hlines
    exact (BitVec.eq_of_toNat_eq hlines).trans h.lines
  · intro hlast
    rw [(run_moved H s).1, ← haddr]
    show (if s.chip.io.bgShow then _ else _) = _
    rw [dotAddr_of_not_last hf (by omega), ite_self]
  · have hlatched := h.tile
    rw [← haddr, ← h.bgPtAddr] at hlatched ⊢
    rw [htile]
    exact hlatched.step hi

/-- The dots of a fetch group. -/
theorem inGroup_iterate {k : ℕ} (hk : Group k) {s : Sys Ppu σ} (hdot : s.chip.dot = 8 * k + 1)
    (hline : s.chip.Rendered) (hroom : Room 8 s.chip) (hstill : Still H s.env) {i : ℕ}
    (hi : i ≤ 8) :
    InGroup (mem H s.env) s.chip i ((post H Ppu.run)^[i] s).chip ∧
      ((post H Ppu.run)^[i] s).env = s.env := by
  induction i with
  | zero => exact ⟨⟨rfl, rfl, rfl, fun _ => rfl, ⟨by omega, by omega, by omega, by omega⟩⟩, rfl⟩
  | succ i ih =>
    obtain ⟨h, henv⟩ := ih (by omega)
    have hstill' : Still H ((post H Ppu.run)^[i] s).env := by rwa [henv]
    have hdot' : s.chip.dot + i ≤ 340 := by
      unfold Group at hk
      omega
    have hrendered : ((post H Ppu.run)^[i] s).chip.Rendered := by
      unfold Rendered at *
      rw [(h.position hdot').1]
      exact hline
    rw [Function.iterate_succ_apply']
    refine ⟨h.run H hk hdot hline hroom (by omega) hstill' (by rw [henv]), ?_⟩
    rw [hstill'.env_run H hrendered, henv]

end Yanesemu.Ppu

namespace Yanesemu.Emulator

open Interaction EventRun
open Ppu (mem Still Looks Room Group Start Call attrByte rowByte)
open VramAddress (horz vert)

/-! ### In the emulator -/

/-- The contents of the memory on the PPU's bus. -/
def vram (e : Emulator) (a : Uint16) : Uint8 := e.readVram a (e.vrambus.reader a)

theorem still_ppuEnv (e : Emulator) : Still ppuEnv e := by
  intro o ho
  cases o with
  | write a d => exact ho.elim
  | clearMem => exact ho.elim
  | nmiCallback => exact ho.elim
  | _ => rfl

/-- Equal but for the PPU. -/
def SameButPpu (e e' : Emulator) : Prop := ∃ p, e' = { e with ppu := p }

theorem readVram_ppu (e : Emulator) (p : Ppu) (a : Uint16) (area : VramArea) :
    readVram { e with ppu := p } a area = e.readVram a area := by
  cases area <;> rfl

theorem writeVram_ppu (e : Emulator) (p : Ppu) (a : Uint16) (d : Uint8) (area : VramArea) :
    writeVram { e with ppu := p } a d area = { e.writeVram a d area with ppu := p } := by
  cases area <;> rfl

/-- The PPU's environment does not look at the PPU in it. -/
theorem agree_ppuEnv : Agree (fun _ => True) SameButPpu ppuEnv ppuEnv := by
  rintro o e _ - ⟨p, rfl⟩
  cases o with
  | read a => exact ⟨(readVram_ppu e p a _).symm, p, rfl⟩
  | write a d => exact ⟨rfl, p, writeVram_ppu e p a d _⟩
  | _ => exact ⟨rfl, p, rfl⟩

/-- **The PPU in the emulator** runs as it does alone with the emulator around it. -/
theorem ppu_iterate (e : Emulator) (k : ℕ) :
    (ppuRun^[k] e).ppu = ((post ppuEnv Ppu.run)^[k] ⟨e.ppu, e⟩).chip ∧
      SameButPpu ((post ppuEnv Ppu.run)^[k] ⟨e.ppu, e⟩).env (ppuRun^[k] e) := by
  induction k with
  | zero => exact ⟨rfl, e.ppu, rfl⟩
  | succ k ih =>
    rw [Function.iterate_succ_apply', Function.iterate_succ_apply']
    generalize ppuRun^[k] e = e' at ih ⊢
    generalize (post ppuEnv Ppu.run)^[k] ⟨e.ppu, e⟩ = s at ih ⊢
    obtain ⟨hchip, hsame⟩ := ih
    obtain ⟨-, hchip', p, henv⟩ := post_sim agree_ppuEnv (m := Ppu.run) (fun _ _ => trivial) hsame
    rw [← hchip] at hchip' henv
    have hrun : e'.ppuRun = { (post ppuEnv Ppu.run ⟨e'.ppu, e'⟩).env with
        ppu := (post ppuEnv Ppu.run ⟨e'.ppu, e'⟩).chip } := rfl
    refine ⟨hchip'.symm, (post ppuEnv Ppu.run ⟨e'.ppu, e'⟩).chip, ?_⟩
    rw [hrun, henv]

/-- **Fetching a tile.** Whatever is in memory and on the bus, the eight dots of a fetch group leave
the four bytes of one tile in the latches, the one at the fetch address the group starts with. On a
visible line with the background shown that address is the one the line starts with, as many tiles
on as there were groups before. The counters have to have room for the dots, which they have after
power or reset whatever is called. -/
theorem tile_fetched :
    (∀ (b : Start) (s : Sys Ppu Emulator) (cs : List Call),
      Room 341 (after (Ppu.step ppuEnv) (post ppuEnv (Ppu.start b) s) cs).chip) ∧
    (∀ (e : Emulator) (k : ℕ), Group k → e.ppu.Rendered → e.ppu.dot = 8 * k + 1 → Room 8 e.ppu →
      let v := e.ppu.vram.addr
      let tile := (ppuRun^[8] e).ppu.tile
      tile.nt = e.vram (0x2000 ||| v &&& 0x0FFF) ∧
      tile.attr = e.vram (attrByte v) ∧
      tile.low = e.vram (rowByte e.ppu.io.bgPtAddr tile.nt v) ∧
      tile.high = e.vram (rowByte e.ppu.io.bgPtAddr tile.nt v + 8)) ∧
    ∀ (e : Emulator) (k : ℕ), k ≤ 31 → e.ppu.line ≤ 239 → e.ppu.dot = 0 →
      e.ppu.io.bgShow = true → Room 341 e.ppu →
      let p := (ppuRun^[8 * k + 1] e).ppu
      p.line = e.ppu.line ∧ p.dot = 8 * k + 1 ∧
      horz p.vram.addr = (horz e.ppu.vram.addr + k) % 64 ∧
      vert p.vram.addr = vert e.ppu.vram.addr := by
  refine ⟨fun b s cs => (Ppu.onBeam_after ppuEnv b s cs).room (by decide), ?_, ?_⟩
  · intro e k hk hline hdot hroom v tile
    have hgroup := (Ppu.inGroup_iterate ppuEnv hk (s := ⟨e.ppu, e⟩) hdot hline hroom
      (still_ppuEnv e) (le_refl 8)).1.tile
    rw [← (ppu_iterate e 8).1] at hgroup
    exact ⟨hgroup.nt (by decide), hgroup.attr (by decide), hgroup.low (by decide),
      hgroup.high (by decide)⟩
  · intro e k hk hline hdot hshow hroom p
    have hvisible : e.ppu.line < 240 := by omega
    have hon := Ppu.onLine_iterate ppuEnv (s := ⟨e.ppu, e⟩) hdot hroom (j := 8 * k + 1) (by omega)
      (by omega)
    rw [← (ppu_iterate e (8 * k + 1)).1] at hon
    obtain ⟨hline', hdot'⟩ := hon.position hdot (by omega)
    refine ⟨hline', hdot', ?_, ?_⟩
    · have hk' : (8 * k + 1 - 1) / 8 = k := by omega
      rw [hon.vram]
      show horz (if e.ppu.io.bgShow then _ else _) = _
      rw [if_pos hshow, Ppu.horz_lineAddr (Or.inl hvisible) _ _ (by omega), if_pos (by omega),
        hk', min_eq_left hk]
    · rw [hon.vram]
      show vert (if e.ppu.io.bgShow then _ else _) = _
      rw [if_pos hshow, Ppu.vert_lineAddr hvisible, if_pos (by omega)]

/-- A cartridge with one page of pattern tables is in, each cell of the name tables holds the low
byte of its own address, and the PPU is on line 0 with its fetch address in a last column. -/
def numbered (dot : Uint64) : Emulator :=
  { ((construct zeroed).insertRom Cartridge.zeroRom (Cartridge.romFile 2 1)).2.1 with
    ppu := { cycles := dot, io.bgShow := true, vram := { addr := 0x043F } }
    vrammem := fun i => BitVec.ofNat 8 i }

/-- The first group of that line reads the last column, the second starts with the first column of
the other name table. -/
theorem tile_fetched_numbered :
    ((ppuRun^[8] (numbered 1)).ppu.tile.nt = 0x3F ∧
      (ppuRun^[8] (numbered 1)).ppu.tile.attr = 0xC7) ∧
    horz (ppuRun^[8 * 1 + 1] (numbered 0)).ppu.vram.addr = 0 ∧
      vert (ppuRun^[8 * 1 + 1] (numbered 0)).ppu.vram.addr = ⟨0, 1, 0⟩ := by
  have hroom : Room 8 (numbered 1).ppu := ⟨by decide, by decide⟩
  have hroom' : Room 341 (numbered 0).ppu := ⟨by decide, by decide⟩
  obtain ⟨hnt, hattr, -, -⟩ :=
    tile_fetched.2.1 (numbered 1) 0 (Or.inl (Nat.zero_le 31)) (Or.inl (by decide)) rfl hroom
  obtain ⟨-, -, hhorz, hvert⟩ :=
    tile_fetched.2.2 (numbered 0) 1 (by decide) (by decide) rfl rfl hroom'
  exact ⟨⟨hnt.trans (by decide), hattr.trans (by decide)⟩, hhorz.trans (by decide),
    hvert.trans (by decide)⟩

end Yanesemu.Emulator
