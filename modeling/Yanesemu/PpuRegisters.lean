import Yanesemu.PpuTiming

/-!
# What the registers promise over a run

Three promises about the calls made to the PPU since power or reset: what a read of PPUSTATUS
tells, when an NMI is signalled, and which addresses reach the VRAM bus. Each is a predicate on
a run, and each holds exactly of the runs that stay away from one situation.
-/

namespace Yanesemu.Ppu

open Interaction EventRun

variable {σ : Type} (H : Handler ppuSig σ)

/-- A VRAM bus on which every cell is zero. -/
def zeroBus : Handler ppuSig Unit := fun o e =>
  (match o with
    | .read _ => (0 : Uint8)
    | .undefinedShift _ => (0 : Uint8)
    | .write .. => ()
    | .clearMem => ()
    | .drawpixel .. => ()
    | .nmiCallback => ()
    | .assert _ => (), e)

/-! ### PPUSTATUS -/

/-- The three high bits of a read of PPUSTATUS are the flags, the others those of the latch. -/
def TellsStatus (s : Sys Ppu σ) : Prop :=
  let v := val H (readreg 0x2002) s
  v.getLsbD 7 = s.chip.io.vblank ∧ v.getLsbD 6 = s.chip.io.spZeroHit ∧
    v.getLsbD 5 = s.chip.io.spOverflow ∧ ∀ i < 5, v.getLsbD i = s.chip.io.latch.getLsbD i

/-- No vertical blank begins in the calls. -/
def NoVblankBegin (s : Sys Ppu σ) (cs : List Call) : Prop :=
  ∀ m ∈ moments (step H) s cs, .nmiCallback ∉ asked H (call m.2) m.1

/-- Every read of PPUSTATUS tells the flags, and of two such reads without the beginning of a
vertical blank in between the second has bit 7 clear. -/
def StatusPromise (s : Sys Ppu σ) (cs : List Call) : Prop :=
  (∀ m ∈ moments (step H) s cs, m.2 = .readreg 0x2002 → TellsStatus H m.1) ∧
  ∀ pre mid suf, cs = pre ++ .readreg 0x2002 :: (mid ++ .readreg 0x2002 :: suf) →
    NoVblankBegin H (step H (after (step H) s pre) (.readreg 0x2002)) mid →
    (val H (readreg 0x2002)
      (after (step H) s (pre ++ .readreg 0x2002 :: mid))).getLsbD 7 = false

/-- The latch has no status bit set whose flag is clear. -/
def LatchClean (p : Ppu) : Prop :=
  (p.io.latch.getLsbD 7 = true → p.io.vblank = true) ∧
  (p.io.latch.getLsbD 6 = true → p.io.spZeroHit = true) ∧
  (p.io.latch.getLsbD 5 = true → p.io.spOverflow = true)

theorem val_readreg_status (s : Sys Ppu σ) :
    val H (readreg 0x2002) s = s.chip.io.latch ||| statusBits s.chip.io := rfl

theorem getLsbD_statusBits (io : Io) (i : ℕ) :
    (statusBits io).getLsbD i =
      ((i == 7 && io.vblank) || (i == 6 && io.spZeroHit) || (i == 5 && io.spOverflow)) := by
  unfold statusBits
  by_cases hi : i < 8
  · generalize io.vblank = a, io.spZeroHit = b, io.spOverflow = c
    interval_cases i <;> cases a <;> cases b <;> cases c <;> rfl
  · rw [BitVec.getLsbD_of_ge _ _ (by omega)]
    have h7 : (i == 7) = false := by rw [beq_eq_false_iff_ne]; omega
    have h6 : (i == 6) = false := by rw [beq_eq_false_iff_ne]; omega
    have h5 : (i == 5) = false := by rw [beq_eq_false_iff_ne]; omega
    rw [h7, h6, h5]
    rfl

/-- One read tells the flags exactly if the latch is clean. -/
theorem tellsStatus_iff (s : Sys Ppu σ) : TellsStatus H s ↔ LatchClean s.chip := by
  unfold TellsStatus LatchClean
  simp only [val_readreg_status, BitVec.getLsbD_or, getLsbD_statusBits]
  have hlow : ∀ i < 5, (s.chip.io.latch.getLsbD i ||
      ((i == 7 && s.chip.io.vblank) || (i == 6 && s.chip.io.spZeroHit) ||
        (i == 5 && s.chip.io.spOverflow))) = s.chip.io.latch.getLsbD i := by
    intro i hi
    interval_cases i <;> simp
  constructor
  · rintro ⟨h7, h6, h5, -⟩
    refine ⟨?_, ?_, ?_⟩
    · intro h
      rw [← h7, h]; rfl
    · intro h
      rw [← h6, h]; rfl
    · intro h
      rw [← h5, h]; rfl
  · rintro ⟨h7, h6, h5⟩
    refine ⟨?_, ?_, ?_, hlow⟩
    · cases hl : s.chip.io.latch.getLsbD 7
      · simp
      · simp [h7 hl]
    · cases hl : s.chip.io.latch.getLsbD 6
      · simp
      · simp [h6 hl]
    · cases hl : s.chip.io.latch.getLsbD 5
      · simp
      · simp [h5 hl]

/-- What a call does to the vertical blank flag. -/
theorem vblank_step_eq (s : Sys Ppu σ) (c : Call) :
    (step H s c).chip.io.vblank =
      if c = .run ∧ s.chip.AtVblankBegin then true
      else if c = .run ∧ s.chip.AtVblankEnd ∨ c = .readreg 0x2002 then false
      else s.chip.io.vblank := by
  cases c with
  | run =>
    have hio : (post H run s).chip.io = s.chip.dotIo := (wp_post (wp_run s.chip) H).1.io
    rw [step_run, hio]
    unfold dotIo
    by_cases hb : s.chip.AtVblankBegin
    · rw [if_pos hb, if_pos ⟨rfl, hb⟩]
    · by_cases he : s.chip.AtVblankEnd
      · rw [if_neg hb, if_pos he, if_neg (fun h => hb h.2), if_pos (Or.inl ⟨rfl, he⟩)]
      · rw [if_neg hb, if_neg he, if_neg (fun h => hb h.2), if_neg (by simp [he])]
  | readreg w =>
    have hw : w.toNat = 0x2002 ↔ w = 0x2002 := by
      rw [← BitVec.toNat_inj]
      rfl
    rw [step_readreg, (wp_post (wp_readreg w s.chip) H).1.vblank]
    simp [hw]
  | writereg w d => simp [(wp_post (wp_writereg w d s.chip) H).1.vblank]
  | readregNoSideeff w => simp [(wp_post (wp_readregNoSideeff w s.chip) H).1]

/-- Only the beginning of a vertical blank sets the flag. -/
theorem vblank_step {s : Sys Ppu σ} {c : Call} (hv : s.chip.io.vblank = false)
    (hn : .nmiCallback ∉ asked H (call c) s) : (step H s c).chip.io.vblank = false := by
  rw [vblank_step_eq, if_neg fun h => hn ((nmiCallback_mem_iff H).mpr h), hv, ite_self]

theorem vblank_after {s : Sys Ppu σ} (hv : s.chip.io.vblank = false) {cs : List Call}
    (hn : NoVblankBegin H s cs) : (after (step H) s cs).chip.io.vblank = false :=
  after_inv_of_guard (I := fun s : Sys Ppu σ => s.chip.io.vblank = false)
    (G := fun s c => PpuOp.nmiCallback ∉ asked H (call c) s) (fun _ _ => vblank_step H) hv cs hn

/-- **PPUSTATUS.** The promise is kept by exactly the runs in which every read of the register
finds a clean latch. -/
theorem statusPromise_iff (b : Start) (s : Sys Ppu σ) (cs : List Call) :
    StatusPromise H (post H (start b) s) cs ↔
      ∀ m ∈ moments (step H) (post H (start b) s) cs,
        m.2 = .readreg 0x2002 → LatchClean m.1.chip := by
  generalize post H (start b) s = s₀
  constructor
  · intro h m hm hread
    exact (tellsStatus_iff H m.1).mp (h.1 m hm hread)
  · intro h
    refine ⟨fun m hm hread => (tellsStatus_iff H m.1).mpr (h m hm hread), ?_⟩
    intro pre mid suf hcs hn
    have hm : (after (step H) s₀ (pre ++ .readreg 0x2002 :: mid), Call.readreg 0x2002) ∈
        moments (step H) s₀ cs :=
      mem_moments_iff.mpr ⟨pre ++ .readreg 0x2002 :: mid, suf, by simp [hcs], rfl⟩
    have hvb : (after (step H) s₀ (pre ++ .readreg 0x2002 :: mid)).chip.io.vblank = false := by
      rw [after_append, after_cons]
      refine vblank_after H ?_ hn
      rw [step_readreg, (wp_post (wp_readreg 0x2002 _) H).1.vblank]
      rfl
    have htells := (tellsStatus_iff H _).mpr (h _ hm rfl)
    exact htells.1.trans hvb

/-- After power, the second of two reads in a row still has bit 7 set. -/
theorem not_statusPromise_two_reads :
    ¬StatusPromise zeroBus (post zeroBus (start .power) ⟨{}, ()⟩)
      [.readreg 0x2002, .readreg 0x2002] := by
  intro h
  have hsecond := h.2 [] [] [] rfl (fun m hm => by cases hm)
  exact absurd hsecond (by decide)

/-! ### NMI -/

/-- Bit 7 of the last byte written to PPUCTRL, clear if there is none. -/
def nmiBit : List Call → Bool :=
  List.foldl (fun bit c =>
    match c with
    | .writereg which data => if which.toNat = 0x2000 then truthy (data &&& 0x80) else bit
    | _ => bit) false

/-- An NMI is signalled only where the enable bit is set, that is only if bit 7 of the last byte
written to PPUCTRL was set. -/
def NmiPromise (s : Sys Ppu σ) (cs : List Call) : Prop :=
  ∀ pre c suf, cs = pre ++ c :: suf →
    .nmiCallback ∈ asked H (call c) (after (step H) s pre) →
    (after (step H) s pre).chip.io.nmiEnabled = true ∧ nmiBit pre = true

/-- The enable bit is the one last written. -/
theorem nmiEnabled_after (b : Start) (s : Sys Ppu σ) (cs : List Call) :
    (after (step H) (post H (start b) s) cs).chip.io.nmiEnabled = nmiBit cs := by
  induction cs using List.reverseRecOn with
  | nil => cases b <;> rfl
  | append_singleton cs c ih =>
    unfold nmiBit at *
    rw [after_concat, List.foldl_append, ← ih]
    generalize after (step H) (post H (start b) s) cs = t
    cases c with
    | run =>
      have hio : (post H run t).chip.io = t.chip.dotIo := (wp_post (wp_run t.chip) H).1.io
      rw [step_run, hio]
      unfold dotIo
      split_ifs <;> rfl
    | readreg w => rw [step_readreg, (wp_post (wp_readreg w t.chip) H).1.nmiEnabled]; rfl
    | writereg w d => rw [step_writereg, (wp_post (wp_writereg w d t.chip) H).1.nmiEnabled]; rfl
    | readregNoSideeff w =>
      rw [step_readregNoSideeff, (wp_post (wp_readregNoSideeff w t.chip) H).1]; rfl

/-- **NMI.** The promise is kept by exactly the runs in which PPUCTRL has the bit set at every
dot on which a vertical blank begins. -/
theorem nmiPromise_iff (b : Start) (s : Sys Ppu σ) (cs : List Call) :
    NmiPromise H (post H (start b) s) cs ↔
      ∀ pre suf, cs = pre ++ .run :: suf → BeamVblank (dots pre) → nmiBit pre = true := by
  have hsignal (pre : List Call) (c : Call) :
      .nmiCallback ∈ asked H (call c) (after (step H) (post H (start b) s) pre) ↔
        c = .run ∧ BeamVblank (dots pre) := by
    rw [nmiCallback_mem_iff, (onBeam_after H b s pre).atVblankBegin_iff]
    exact Iff.rfl
  constructor
  · intro h pre suf hcs hv
    exact (h pre .run suf hcs ((hsignal pre .run).mpr ⟨rfl, hv⟩)).2
  · intro h pre c suf hcs hn
    obtain ⟨rfl, hv⟩ := (hsignal pre c).mp hn
    have hbit := h pre suf hcs hv
    exact ⟨(nmiEnabled_after H b s pre).trans hbit, hbit⟩

/-- Without any write the first vertical blank signals an NMI. -/
theorem not_nmiPromise_no_write :
    ¬NmiPromise zeroBus (post zeroBus (start .power) ⟨{}, ()⟩) (List.replicate 82183 .run) := by
  intro h
  have hsplit : List.replicate 82183 Call.run = List.replicate 82182 .run ++ .run :: [] := by
    rw [show 82183 = 82182 + 1 from rfl, List.replicate_succ']
  have hbeam : OnBeam 82182
      (after (step zeroBus) (post zeroBus (start .power) ⟨{}, ()⟩)
        (List.replicate 82182 .run)).chip := by
    have h := onBeam_after zeroBus .power ⟨{}, ()⟩ (List.replicate 82182 .run)
    rwa [dots, List.count_replicate_self] at h
  have hbit (n : ℕ) : nmiBit (List.replicate n .run) = false := by
    unfold nmiBit
    induction n with
    | zero => rfl
    | succ n ih => rw [List.replicate_succ, List.foldl_cons, ih]
  have hn := (nmiCallback_mem_iff zeroBus (c := .run)).mpr
    ⟨rfl, hbeam.atVblankBegin_iff.mpr (Or.inl rfl)⟩
  exact absurd (h _ _ _ hsplit hn).2 (by rw [hbit]; decide)

/-! ### The VRAM bus -/

/-- The addresses the operations put on the bus. -/
def busAddr : PpuOp → Option Uint16
  | .read a => some a
  | .write a _ => some a
  | _ => none

/-- Every address put on the bus is below `PPUBUS_SIZE`. -/
def BusPromise (s : Sys Ppu σ) (cs : List Call) : Prop :=
  ∀ m ∈ moments (step H) s cs, ∀ o ∈ asked H (call m.2) m.1,
    ∀ a, busAddr o = some a → a.toNat < 0x4000

/-- The calls that access PPUDATA, the debugger's included. -/
def Call.Data : Call → Prop
  | .run => False
  | .readreg which => which = 0x2007
  | .writereg which _ => which = 0x2007
  | .readregNoSideeff which => which = 0x2007

theorem addr_drawOp {o : PpuOp} (h : DrawOp o) {a : Uint16} (ha : busAddr o = some a) :
    a.toNat < 0x4000 := by
  cases o <;> cases ha
  · exact h
  · exact h.elim

/-- An access of a register puts an address on the bus only for PPUDATA, and then `vram.addr`. -/
theorem addr_regOp {which : Uint16} {p : Ppu} {o : PpuOp} (h : RegOp which p o) {a : Uint16}
    (ha : busAddr o = some a) : which = 0x2007 ∧ a = p.vram.addr := by
  obtain ⟨hw, rfl | ⟨d, rfl⟩⟩ := h
  · cases ha
    exact ⟨BitVec.eq_of_toNat_eq hw, rfl⟩
  · cases ha
    exact ⟨BitVec.eq_of_toNat_eq hw, rfl⟩

/-- An address a call puts on the bus is in range unless it is that of PPUDATA. -/
theorem addr_of_asked {s : Sys Ppu σ} {c : Call} {o : PpuOp} (ho : o ∈ asked H (call c) s)
    {a : Uint16} (ha : busAddr o = some a) :
    a.toNat < 0x4000 ∨ (c.Data ∧ a = s.chip.vram.addr) := by
  cases c with
  | run =>
    rcases (wp_post (wp_run s.chip) H).2 o ho with hd | ⟨-, rfl⟩
    · exact Or.inl (addr_drawOp hd ha)
    · cases ha
  | readreg w =>
    rw [asked_readreg] at ho
    exact Or.inr (addr_regOp ((wp_post (wp_readreg w s.chip) H).2 o ho) ha)
  | writereg w d => exact Or.inr (addr_regOp ((wp_post (wp_writereg w d s.chip) H).2 o ho) ha)
  | readregNoSideeff w =>
    rw [asked_readregNoSideeff] at ho
    exact Or.inr (addr_regOp ((wp_post (wp_readregNoSideeff w s.chip) H).2 o ho) ha)

/-- An access of PPUDATA with an address from the palette on does put it on the bus. -/
theorem asked_data {s : Sys Ppu σ} {c : Call} (hc : c.Data)
    (ha : 0x3F00 ≤ s.chip.vram.addr.toNat) :
    ∃ o ∈ asked H (call c) s, busAddr o = some s.chip.vram.addr := by
  have hlt : ¬s.chip.vram.addr.toNat < 0x3F00 := by omega
  cases c with
  | run => exact hc.elim
  | readreg w =>
    obtain rfl : w = 0x2007 := hc
    refine ⟨.read s.chip.vram.addr, ?_, rfl⟩
    rw [asked_readreg]
    simp [readreg, readData, hlt]
  | writereg w d =>
    obtain rfl : w = 0x2007 := hc
    exact ⟨.write s.chip.vram.addr d, List.mem_cons_self .., rfl⟩
  | readregNoSideeff w =>
    obtain rfl : w = 0x2007 := hc
    refine ⟨.read s.chip.vram.addr, ?_, rfl⟩
    rw [asked_readregNoSideeff]
    simp [readregNoSideeff, hlt]

/-- **The VRAM bus.** The promise is kept by exactly the runs in which every access of PPUDATA
finds `vram.addr` in range. -/
theorem busPromise_iff (b : Start) (s : Sys Ppu σ) (cs : List Call) :
    BusPromise H (post H (start b) s) cs ↔
      ∀ m ∈ moments (step H) (post H (start b) s) cs,
        m.2.Data → m.1.chip.vram.addr.toNat < 0x4000 := by
  constructor
  · intro h m hm hd
    by_contra hge
    obtain ⟨o, ho, ha⟩ := asked_data H (s := m.1) hd (by omega)
    exact hge (h m hm o ho _ ha)
  · intro h m hm o ho a ha
    rcases addr_of_asked H ho ha with hlt | ⟨hd, rfl⟩
    · exact hlt
    · exact h m hm hd

/-- PPUDATA read twice from the last address of the bus: the second read is out of range. -/
theorem not_busPromise_last_address :
    ¬BusPromise zeroBus (post zeroBus (start .power) ⟨{}, ()⟩)
      [.writereg 0x2006 0x3F, .writereg 0x2006 0xFF, .readreg 0x2007, .readreg 0x2007] := by
  intro h
  let t := after (step zeroBus) (post zeroBus (start .power) ⟨{}, ()⟩)
    [.writereg 0x2006 0x3F, .writereg 0x2006 0xFF, .readreg 0x2007]
  have hlast := h (t, .readreg 0x2007) (mem_moments_iff.mpr ⟨_, [], rfl, rfl⟩)
  obtain ⟨o, ho, ha⟩ := asked_data zeroBus (s := t) (c := .readreg 0x2007) rfl (by decide)
  exact absurd (hlast o ho _ ha) (by decide)

end Yanesemu.Ppu
