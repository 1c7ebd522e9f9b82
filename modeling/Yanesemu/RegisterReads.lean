import Yanesemu.VramUpload

/-!
# Reading registers

A read of a register can change the machine: PPUDATA moves the PPU's address on, PPUSTATUS clears
two flags, and PPUSTATUS and OAMDATA change the latch. Whether a sequence of reads leaves the
machine as it was is decided by the registers among them and the state before (`Harmless`,
`after_regRead_iff`). Two things must not happen on the way: the address must not come round to
where it was, and the latch that OAMDATA has cleared must not be filled again.
-/

namespace Yanesemu.Emulator

open Interaction EventRun

/-! ### Reading registers -/

/-- A read of the register `which`. -/
def regRead (e : Emulator) (which : Uint16) : Emulator := (e.onPpu (Ppu.readreg which)).2

theorem regRead_status (e : Emulator) :
    e.regRead 0x2002 = { e with ppu := { e.ppu with
      io.latch := e.ppu.io.latch ||| Ppu.statusBits e.ppu.io
      io.vblank := false
      io.scrollLatch := false } } := rfl

/-- The machine with another byte in the PPU's latch. -/
def setLatch (e : Emulator) (latch : Uint8) : Emulator :=
  { e with ppu := { e.ppu with io.latch := latch } }

theorem setLatch_eq_self_iff {e : Emulator} {latch : Uint8} :
    e.setLatch latch = e ↔ latch = e.ppu.io.latch := by
  constructor
  · intro h
    exact congrArg (fun e : Emulator => e.ppu.io.latch) h
  · rintro rfl
    rfl

theorem regRead_oamdata (e : Emulator) : e.regRead 0x2004 = e.setLatch 0 := rfl

theorem regRead_data (e : Emulator) :
    ∃ latch dataBuf, e.regRead 0x2007 = { e with ppu := { e.ppu with
      io.latch := latch
      io.dataBuf := dataBuf
      vram.addr := e.ppu.vram.addr + if e.ppu.io.vramInc then 32 else 1 } } := by
  have hreg : Ppu.readreg 0x2007 = (do Ppu.readData; return (← get).io.latch) := rfl
  unfold regRead onPpu
  rw [hreg, post_bind]
  unfold Ppu.readData
  rw [post_bind, val_get, post_get, post_bind]
  split
  · exact ⟨_, _, rfl⟩
  · exact ⟨_, e.ppu.io.dataBuf, rfl⟩

theorem regRead_of_ne {e : Emulator} {which : Uint16} (h2 : which ≠ 0x2002) (h4 : which ≠ 0x2004)
    (h7 : which ≠ 0x2007) : e.regRead which = e := by
  have hne {w : Uint16} (h : which ≠ w) : which.toNat ≠ w.toNat :=
    fun heq => h (BitVec.eq_of_toNat_eq heq)
  unfold regRead onPpu Ppu.readreg
  rw [post_bind]
  split
  · next h => exact absurd h (hne h2)
  · next h => exact absurd h (hne h4)
  · next h => exact absurd h (hne h7)
  · rfl

/-- All a read can do. -/
theorem regRead_cases (e : Emulator) (which : Uint16) :
    (which = 0x2002 ∧ e.regRead which = { e with ppu := { e.ppu with
      io.latch := e.ppu.io.latch ||| Ppu.statusBits e.ppu.io
      io.vblank := false
      io.scrollLatch := false } }) ∨
    (which = 0x2004 ∧ e.regRead which = e.setLatch 0) ∨
    (which = 0x2007 ∧ ∃ latch dataBuf, e.regRead which = { e with ppu := { e.ppu with
      io.latch := latch
      io.dataBuf := dataBuf
      vram.addr := e.ppu.vram.addr + if e.ppu.io.vramInc then 32 else 1 } }) ∨
    ((which ≠ 0x2002 ∧ which ≠ 0x2004 ∧ which ≠ 0x2007) ∧ e.regRead which = e) := by
  by_cases h2 : which = 0x2002
  · subst h2
    exact Or.inl ⟨rfl, regRead_status e⟩
  · by_cases h4 : which = 0x2004
    · subst h4
      exact Or.inr (Or.inl ⟨rfl, regRead_oamdata e⟩)
    · by_cases h7 : which = 0x2007
      · subst h7
        exact Or.inr (Or.inr (Or.inl ⟨rfl, regRead_data e⟩))
      · exact Or.inr (Or.inr (Or.inr ⟨⟨h2, h4, h7⟩, regRead_of_ne h2 h4 h7⟩))

/-- Reads leave the increment of the address as it is, and only PPUDATA moves it. -/
theorem regRead_addr (e : Emulator) (which : Uint16) :
    (e.regRead which).ppu.io.vramInc = e.ppu.io.vramInc ∧
      (e.regRead which).ppu.vram.addr =
        if which = 0x2007 then e.ppu.vram.addr + (if e.ppu.io.vramInc then 32 else 1)
        else e.ppu.vram.addr := by
  obtain ⟨rfl, h⟩ | ⟨rfl, h⟩ | ⟨rfl, latch, dataBuf, h⟩ | ⟨⟨-, -, h7⟩, h⟩ := regRead_cases e which
  · rw [h]
    exact ⟨rfl, (if_neg (by decide)).symm⟩
  · rw [h]
    exact ⟨rfl, (if_neg (by decide)).symm⟩
  · rw [h, if_pos rfl]
    exact ⟨rfl, rfl⟩
  · rw [h, if_neg h7]
    exact ⟨rfl, rfl⟩

/-- The address moves on by one stride for each read of PPUDATA. -/
theorem addr_after_regRead (e : Emulator) (ws : List Uint16) :
    (after regRead e ws).ppu.io.vramInc = e.ppu.io.vramInc ∧
      (after regRead e ws).ppu.vram.addr =
        nthAddr e.ppu.vram.addr (vramStride e.ppu) (ws.count 0x2007) := by
  induction ws using List.reverseRecOn with
  | nil => exact ⟨rfl, (nthAddr_zero _ _).symm⟩
  | append_singleton ws w ih =>
    obtain ⟨hinc, haddr⟩ := ih
    obtain ⟨hinc', haddr'⟩ := regRead_addr (after regRead e ws) w
    rw [after_concat]
    refine ⟨hinc'.trans hinc, ?_⟩
    rw [haddr', hinc, haddr, List.count_append]
    by_cases h7 : w = 0x2007
    · subst h7
      rw [if_pos rfl, List.count_singleton_self]
      exact nthAddr_succ e.ppu.vram.addr e.ppu _
    · have hzero : [w].count 0x2007 = 0 :=
        List.count_eq_zero.mpr fun h => h7 (List.mem_singleton.mp h).symm
      rw [if_neg h7, hzero]
      rfl

/-- Fewer than 2048 steps do not bring the address back to where it was. -/
theorem nthAddr_eq_self_iff {a : Uint16} {p : Ppu} {i : ℕ} (hi : i < 2048) :
    nthAddr a (vramStride p) i = a ↔ i = 0 := by
  constructor
  · intro h
    have hzero : BitVec.ofNat 16 (i * vramStride p) = 0 := by
      unfold nthAddr at h
      simpa using h
    have hmod : i * vramStride p % 65536 = 0 := congrArg BitVec.toNat hzero
    unfold vramStride at hmod
    split at hmod <;> omega
  · rintro rfl
    exact nthAddr_zero a _

/-! ### Sequences of register reads -/

/-- Reads of the registers `ws` leave a PPU in the state `p` as it is. The latch that a read of
PPUSTATUS has changed is put back by OAMDATA if it was zero before. -/
structure Harmless (ws : List Uint16) (p : Ppu) : Prop where
  data : 0x2007 ∉ ws
  status : 0x2002 ∈ ws → p.io.vblank = false ∧ p.io.scrollLatch = false
  oamdata : 0x2004 ∈ ws → p.io.latch = 0
  latch : 0x2002 ∈ ws → 0x2004 ∉ ws → p.io.latch ||| Ppu.statusBits p.io = p.io.latch

/-- No read of PPUSTATUS comes after one of OAMDATA. -/
def StatusFirst (ws : List Uint16) : Prop := ws.Pairwise fun v w => v = 0x2004 → w ≠ 0x2002

/-- The latch after reads of the registers `ws`, if PPUSTATUS has the bits `bits`. -/
def latchAfter (bits latch : Uint8) (ws : List Uint16) : Uint8 :=
  if 0x2004 ∈ ws then 0 else if 0x2002 ∈ ws then latch ||| bits else latch

section LatchAfter

variable {bits latch : Uint8} {ws : List Uint16}

theorem latchAfter_status :
    latchAfter bits latch (0x2002 :: ws) = latchAfter bits (latch ||| bits) ws := by
  have h4 : (0x2004 : Uint16) ∈ 0x2002 :: ws ↔ 0x2004 ∈ ws := by simp
  unfold latchAfter
  rw [if_pos (List.mem_cons_self (a := (0x2002 : Uint16))), BitVec.or_assoc, BitVec.or_self,
    ite_self]
  exact if_congr h4 rfl rfl

theorem latchAfter_oamdata (h2 : 0x2002 ∉ ws) :
    latchAfter bits latch (0x2004 :: ws) = latchAfter bits 0 ws := by
  unfold latchAfter
  rw [if_pos List.mem_cons_self, if_neg h2, ite_self]

theorem latchAfter_of_ne {w : Uint16} (h2 : w ≠ 0x2002) (h4 : w ≠ 0x2004) :
    latchAfter bits latch (w :: ws) = latchAfter bits latch ws := by
  have hmem {v : Uint16} (h : w ≠ v) : v ∈ w :: ws ↔ v ∈ ws := by
    rw [List.mem_cons, or_iff_right (Ne.symm h)]
  exact if_congr (hmem h4) rfl (if_congr (hmem h2) rfl rfl)

end LatchAfter

/-- The flags that PPUSTATUS clears. -/
def Clear (e : Emulator) : Prop := e.ppu.io.vblank = false ∧ e.ppu.io.scrollLatch = false

theorem regRead_status_of_clear {e : Emulator} (h : Clear e) :
    e.regRead 0x2002 = e.setLatch (e.ppu.io.latch ||| Ppu.statusBits e.ppu.io) := by
  have hio (io : Io) (l : Uint8) (hv : io.vblank = false) (hl : io.scrollLatch = false) :
      { io with latch := l, vblank := false, scrollLatch := false } = { io with latch := l } := by
    cases io
    cases hv
    cases hl
    rfl
  rw [regRead_status]
  exact congrArg (fun io => { e with ppu := { e.ppu with io := io } }) (hio e.ppu.io _ h.1 h.2)

/-- Without PPUDATA only the latch changes, if the flags are clear. -/
theorem after_regRead {e : Emulator} {ws : List Uint16} (h7 : 0x2007 ∉ ws)
    (hclear : 0x2002 ∈ ws → Clear e) (hfirst : StatusFirst ws) :
    after regRead e ws =
      e.setLatch (latchAfter (Ppu.statusBits e.ppu.io) e.ppu.io.latch ws) := by
  induction ws generalizing e with
  | nil => rfl
  | cons w ws ih =>
    rw [List.mem_cons, not_or] at h7
    obtain ⟨hw7, h7⟩ := h7
    rw [StatusFirst, List.pairwise_cons] at hfirst
    obtain ⟨hw, hfirst⟩ := hfirst
    have hclear' (h2 : 0x2002 ∈ ws) := hclear (List.mem_cons_of_mem w h2)
    rw [after_cons]
    by_cases h2 : w = 0x2002
    · subst h2
      rw [regRead_status_of_clear (hclear List.mem_cons_self), latchAfter_status]
      exact ih (e := e.setLatch _) h7 hclear' hfirst
    · by_cases h4 : w = 0x2004
      · subst h4
        have hno : 0x2002 ∉ ws := fun h => hw _ h rfl rfl
        rw [regRead_oamdata, latchAfter_oamdata hno]
        exact ih (e := e.setLatch 0) h7 hclear' hfirst
      · rw [regRead_of_ne h2 h4 (Ne.symm hw7), latchAfter_of_ne h2 h4]
        exact ih h7 hclear' hfirst

/-- A read never sets a flag. -/
theorem Clear.regRead {e : Emulator} (h : Clear e) (which : Uint16) : Clear (e.regRead which) := by
  obtain ⟨-, hr⟩ | ⟨-, hr⟩ | ⟨-, latch, dataBuf, hr⟩ | ⟨-, hr⟩ := regRead_cases e which
  · rw [hr]
    exact ⟨rfl, rfl⟩
  · rw [hr]
    exact h
  · rw [hr]
    exact h
  · rw [hr]
    exact h

theorem clear_after_regRead {e : Emulator} {ws : List Uint16} (h2 : 0x2002 ∈ ws) :
    Clear (after regRead e ws) := by
  obtain ⟨pre, suf, rfl⟩ := List.append_of_mem h2
  rw [after_append, after_cons]
  exact after_inv (fun _ w hs => hs.regRead w) ⟨rfl, rfl⟩ suf

/-- **Register reads.** A sequence with fewer than 2048 reads of PPUDATA, and without a read of
PPUSTATUS after one of OAMDATA, leaves the machine as it is exactly if it is harmless. -/
theorem after_regRead_iff {e : Emulator} {ws : List Uint16} (hcount : ws.count 0x2007 < 2048)
    (hfirst : 0x2007 ∉ ws → StatusFirst ws) : after regRead e ws = e ↔ Harmless ws e.ppu := by
  constructor
  · intro h
    have haddr := (addr_after_regRead e ws).2
    rw [h] at haddr
    have h7 : 0x2007 ∉ ws := by
      rw [← List.count_eq_zero]
      exact (nthAddr_eq_self_iff hcount).mp haddr.symm
    have hclear (h2 : 0x2002 ∈ ws) : Clear e := by
      rw [← h]
      exact clear_after_regRead h2
    have hlatch := after_regRead h7 hclear (hfirst h7)
    rw [h, eq_comm, setLatch_eq_self_iff] at hlatch
    unfold latchAfter at hlatch
    refine ⟨h7, hclear, ?_, ?_⟩
    · intro h4
      rw [if_pos h4] at hlatch
      exact hlatch.symm
    · intro h2 h4
      rw [if_neg h4, if_pos h2] at hlatch
      exact hlatch
  · intro h
    rw [after_regRead h.data h.status (hfirst h.data), setLatch_eq_self_iff]
    unfold latchAfter
    split_ifs with h4 h2
    · exact (h.oamdata h4).symm
    · exact h.latch h2 h4
    · rfl

end Yanesemu.Emulator
