import Yanesemu.TestRom

/-!
# The interrupt handler of the test ROM

`nmi` of `testrom/test.asm` saves the registers, counts the interrupt, writes to the PPU and
restores the registers. `nmi_transparent`: from any instruction at which the NMI is entered, with
any registers and any stack pointer, the machine is back at that instruction with its registers in
21 steps. It has written its part of the stack, `nmi_flag` and registers of the PPU.
-/

namespace Yanesemu.Isa

open Cpu MachineCode
open Emulator (Private Readable Writable)

variable {rom : Mem}

/-! ## The code -/

def scrollX : Uint16 := 8
def scrollY : Uint16 := 9
def nmiFlag : Uint16 := 10

/-- `pha`, `txa`, `pha`, `tya`, `pha`. -/
def nmiSave : List Line :=
  [⟨.impld .pha, .impld, 0⟩, ⟨.transfer .x .acc, .impld, 0⟩, ⟨.impld .pha, .impld, 0⟩,
    ⟨.transfer .y .acc, .impld, 0⟩, ⟨.impld .pha, .impld, 0⟩]

/-- What the handler is for. -/
def nmiBody : List Line :=
  [⟨.modify .inc, .zero, nmiFlag⟩, ⟨.read .lda, .imm, 0⟩, ⟨.store .acc, .abs, 0x2003⟩,
    ⟨.read .lda, .abs, spritebuf⟩, ⟨.store .acc, .abs, 0x4014⟩, ⟨.read .lda, .zero, scrollX⟩,
    ⟨.store .acc, .abs, 0x2005⟩, ⟨.read .lda, .zero, scrollY⟩, ⟨.store .acc, .abs, 0x2005⟩]

/-- `pla`, `tay`, `pla`, `tax`, `pla`. -/
def nmiRestore : List Line :=
  [⟨.impld .pla, .impld, 0⟩, ⟨.transfer .acc .y, .impld, 0⟩, ⟨.impld .pla, .impld, 0⟩,
    ⟨.transfer .acc .x, .impld, 0⟩, ⟨.impld .pla, .impld, 0⟩]

def nmiHandler : List Line := nmiSave ++ nmiBody ++ nmiRestore ++ [⟨.impld .rti, .impld, 0⟩]

/-! ## Its parts -/

section Parts

variable (s : State)

theorem fits_nmiSave : FitsAll nmiSave s := by
  simp only [nmiSave, FitsAll, Line.Fits, Line.Short, and_true]

theorem runLines_nmiSave :
    ∃ f, runLines nmiSave s = { s with
      pc := s.pc + BitVec.ofNat 16 5
      acc := s.y
      sp := s.sp - 3
      flags := f
      mem := stored s.mem (pushed s.sp [s.acc, s.x, s.y]) } := by
  refine ⟨(runLines nmiSave s).flags,
    State.ext (runLines_pc (fits_nmiSave s)) rfl rfl rfl ?_ rfl rfl rfl⟩
  show s.sp - 1 - 1 - 1 = s.sp - 3
  rw [BitVec.sub_sub, BitVec.sub_sub]; rfl

theorem result_inc (v : Uint8) : s.result v .inc = v + 1 := by
  apply BitVec.eq_of_toNat_eq
  rw [State.result, BitVec.toNat_ofNat, BitVec.toNat_add]
  exact Nat.mod_mod _ _

theorem fits_nmiBody : FitsAll nmiBody s := by
  simp only [nmiBody, FitsAll, Line.Fits, State.target, State.Direct, Readable, Writable, true_and,
    true_or, and_true, reduceCtorEq, false_or]
  decide

/-- What the body writes. -/
def bodyStores : List Store :=
  [(nmiFlag, s.mem nmiFlag + 1), (0x2003, 0), (0x4014, s.mem spritebuf), (0x2005, s.mem scrollX),
    (0x2005, s.mem scrollY)]

theorem runLines_nmiBody :
    ∃ a f, runLines nmiBody s = { s with
      pc := s.pc + BitVec.ofNat 16 23
      acc := a
      flags := f
      mem := stored s.mem (bodyStores s) } := by
  refine ⟨(runLines nmiBody s).acc, (runLines nmiBody s).flags,
    State.ext (runLines_pc (fits_nmiBody s)) rfl ?_ ?_ ?_ rfl ?_ ?_⟩
  all_goals simp only [nmiBody, runLines, Line.run, State.target, State.read, State.load,
    State.setReg, State.showing, State.modify, State.reg, reduceCtorEq, if_true, if_false]
  have hflag : zp (Reg16.low nmiFlag) = nmiFlag := rfl
  have hx : zp (Reg16.low scrollX) = scrollX := rfl
  have hy : zp (Reg16.low scrollY) = scrollY := rfl
  have hzero : Reg16.low 0 = 0 := rfl
  rw [hflag, hx, hy, hzero, result_inc]
  -- the cells the body reads are none of those it has written
  simp [Function.update_of_ne, spritebuf, nmiFlag, scrollX, scrollY, bodyStores, stored]

theorem fits_nmiRestore : FitsAll nmiRestore s := by
  simp only [nmiRestore, FitsAll, Line.Fits, Line.Short, and_true]

theorem runLines_nmiRestore :
    ∃ f, runLines nmiRestore s = { s with
      pc := s.pc + BitVec.ofNat 16 5
      acc := s.stack 3
      x := s.stack 2
      y := s.stack 1
      sp := s.sp + 3
      flags := f } := by
  have htwo : s.sp + 1 + 1 = s.sp + 2 := by rw [BitVec.add_assoc]; rfl
  have hthree : s.sp + 1 + 1 + 1 = s.sp + 3 := by rw [htwo, BitVec.add_assoc]; rfl
  refine ⟨(runLines nmiRestore s).flags,
    State.ext (runLines_pc (fits_nmiRestore s)) ?_ ?_ rfl hthree rfl rfl rfl⟩
  · exact congrArg (fun i => s.mem (stackAddr i)) hthree
  · exact congrArg (fun i => s.mem (stackAddr i)) htwo

end Parts

/-! ## The handler -/

section Handler

variable {s : State}

/-- What the handler writes, with what the interrupt sequence pushes before. -/
def nmiStores (s : State) : List Store :=
  pushed s.sp [Reg16.high s.pc, Reg16.low s.pc, s.flags.toByte, s.acc, s.x, s.y] ++ bodyStores s

/-- The state when the handler has come back. -/
def nmiDone (s : State) : State :=
  { s with
    flags.breakf := false
    sig := { s.sig with
      nmipending := false, execnmi := false, entries := .nmi :: s.sig.entries }
    mem := stored s.mem (nmiStores s) }

/-- An NMI is about to be entered, and nothing else is pending. -/
structure AtNmi (i : Signals) : Prop where
  execnmi : i.execnmi = true
  nmipending : i.nmipending = true
  resetpending : i.resetpending = false
  execirq : i.execirq = false
  irqpending : i.irqpending = false

/-- Where the interrupt sequence leads. -/
def entered (p : Uint16) (s : State) : State :=
  { s with
    pc := p
    sp := s.sp - 3
    flags := { s.flags with breakf := false, intdis := true }
    sig := { s.sig with nmipending := false, execnmi := false, entries := .nmi :: s.sig.entries }
    mem := stored s.mem (pushed s.sp [Reg16.high s.pc, Reg16.low s.pc, s.flags.toByte]) }

/-- The vector lies in the ROM. -/
def nmiVector (rom : Mem) : Uint16 := Reg16.ofBytes (rom 0xFFFA) (rom 0xFFFB)

theorem step_entered (hsig : AtNmi s.sig) (hrom : ∀ a, 0x8000 ≤ a.toNat → s.mem a = rom a) :
    Private s ∧ s.step = entered (nmiVector rom) s := by
  have hentry : s.sig.entry = .nmi := by
    unfold Signals.entry
    rw [hsig.resetpending, hsig.nmipending]
    rfl
  refine ⟨private_interrupt (.inl hsig.execnmi), ?_⟩
  set m := stored s.mem (pushed s.sp [Reg16.high s.pc, Reg16.low s.pc, s.flags.toByte]) with hm
  have hword (a : Uint16) (ha : 0x8000 ≤ a.toNat) : m a = rom a := by
    rw [hm, stored_pushed_rom ha, hrom a ha]
  have hvec : s.vector = 0xFFFA := by
    unfold State.vector
    rw [hsig.resetpending, hsig.nmipending]
    rfl
  have hsp : s.sp - 1 - 1 - 1 = s.sp - 3 := by rw [BitVec.sub_sub, BitVec.sub_sub]; rfl
  rw [State.step_nmi hsig.execnmi]
  refine State.ext ?_ rfl rfl rfl hsp rfl ?_ rfl
  · show Reg16.ofBytes (m s.vector) (m (s.vector + 1)) = nmiVector rom
    rw [hvec, hword _ (by decide), hword _ (by decide)]
    rfl
  · show { s.sig.enter with execnmi := false } = _
    unfold Signals.enter
    rw [hentry]
    rfl

theorem runs_entered (hsig : AtNmi s.sig) (hrom : ∀ a, 0x8000 ≤ a.toNat → s.mem a = rom a)
    (p : Uint16) : Runs rom (entered p s) :=
  ⟨⟨rfl, hsig.execirq, rfl, hsig.irqpending⟩,
    fun a ha => (stored_pushed_rom ha s.mem).trans (hrom a ha)⟩

/-- The handler's writes come one part after the other. -/
theorem stored_nmiStores (s : State) (p : Uint16) :
    let t := entered p s
    let u := { t with mem := stored t.mem (pushed t.sp [s.acc, s.x, s.y]) }
    stored u.mem (bodyStores u) = stored s.mem (nmiStores s) := by
  intro t u
  have hmem : u.mem = stored s.mem (pushed s.sp
      [Reg16.high s.pc, Reg16.low s.pc, s.flags.toByte, s.acc, s.x, s.y]) := by
    rw [show [Reg16.high s.pc, Reg16.low s.pc, s.flags.toByte, s.acc, s.x, s.y] =
      [Reg16.high s.pc, Reg16.low s.pc, s.flags.toByte] ++ [s.acc, s.x, s.y] from rfl,
      pushed_append, stored_append]
    rfl
  have hcell (a : Uint16) (ha : a.toNat < 0x100 ∨ 0x200 ≤ a.toNat) : u.mem a = s.mem a := by
    rw [hmem, stored_pushed_outside ha]
  have hbody : bodyStores u = bodyStores s := by
    unfold bodyStores
    rw [hcell nmiFlag (by decide), hcell spritebuf (by decide), hcell scrollX (by decide),
      hcell scrollY (by decide)]
  rw [hbody, hmem, nmiStores, stored_append]

/-- The stack that the handler pulls from. -/
theorem nmiStores_stack {i : ℕ} (hi : i < 6) :
    stored s.mem (nmiStores s) (stackAddr (s.sp - BitVec.ofNat 8 i)) =
      [Reg16.high s.pc, Reg16.low s.pc, s.flags.toByte, s.acc, s.x, s.y][i] := by
  have hlen : [Reg16.high s.pc, Reg16.low s.pc, s.flags.toByte, s.acc, s.x, s.y].length ≤ 0x100 :=
    Nat.le_of_ble_eq_true rfl
  rw [nmiStores, stored_append, stored_of_not_mem, stored_pushed hi hlen]
  intro w hw heq
  have hcell := congrArg BitVec.toNat heq
  rw [stackAddr_toNat] at hcell
  have hb := (s.sp - BitVec.ofNat 8 i).isLt
  have hw' : w.1 ∈ [nmiFlag, 0x2003, 0x4014, 0x2005, 0x2005] := List.mem_map_of_mem hw
  simp only [List.mem_cons, List.not_mem_nil, or_false] at hw'
  have hflag : nmiFlag.toNat = 10 := rfl
  rcases hw' with h | h | h | h | h <;> rw [h] at hcell
  · omega
  · have h : (0x2003 : Uint16).toNat = 0x2003 := rfl
    omega
  · have h : (0x4014 : Uint16).toNat = 0x4014 := rfl
    omega
  all_goals
    have h : (0x2005 : Uint16).toNat = 0x2005 := rfl
    omega

/-- The handler before it restores the registers. -/
structure Saved (s u : State) : Prop where
  sp : u.sp = s.sp - 6
  sig : u.sig = (nmiDone s).sig
  mem : u.mem = stored s.mem (nmiStores s)

theorem saved_body (s : State) (p : Uint16) :
    Saved s (runLines nmiBody (runLines nmiSave (entered p s))) := by
  obtain ⟨f, hsave⟩ := runLines_nmiSave (entered p s)
  obtain ⟨a, f', hbody⟩ := runLines_nmiBody (runLines nmiSave (entered p s))
  have hsp : s.sp - 3 - 3 = s.sp - 6 := by rw [BitVec.sub_sub]; rfl
  rw [hbody, hsave]
  exact ⟨hsp, rfl, stored_nmiStores s p⟩

theorem Saved.stack {u : State} (h : Saved s u) {i : ℕ} (hi : i < 6) :
    u.stack (BitVec.ofNat 8 (6 - i)) =
      [Reg16.high s.pc, Reg16.low s.pc, s.flags.toByte, s.acc, s.x, s.y][i] := by
  have hcell : s.sp - 6 + BitVec.ofNat 8 (6 - i) = s.sp - BitVec.ofNat 8 i := by bv_omega
  rw [State.stack, h.sp, h.mem, hcell, nmiStores_stack hi]

/-- RTI after the registers have been restored. -/
theorem Saved.restored {u t : State} (h : Saved s u) {f : ProcStatus} {p : Uint16}
    (ht : t = { u with
      pc := p, acc := u.stack 3, x := u.stack 2, y := u.stack 1, sp := u.sp + 3, flags := f }) :
    { t with
      flags := Cpu.restored (t.stack 1)
      pc := Reg16.ofBytes (t.stack 2) (t.stack 3)
      sp := t.sp + 3 } = nmiDone s := by
  have hstack (n : Uint8) : t.stack n = u.stack (3 + n) := by
    subst ht
    exact congrArg (fun b => u.mem (stackAddr b)) (BitVec.add_assoc ..)
  have hflags : Cpu.restored s.flags.toByte = { s.flags with breakf := false } :=
    congrArg (fun p : ProcStatus => { p with breakf := false }) (ProcStatus.ofByte_toByte s.flags)
  have hsp : u.sp + 3 + 3 = s.sp := by rw [h.sp]; bv_omega
  have hpc : Reg16.ofBytes (t.stack 2) (t.stack 3) = s.pc := by
    rw [hstack, hstack]
    exact (congrArg₂ Reg16.ofBytes (h.stack (i := 1) (by decide))
      (h.stack (i := 0) (by decide))).trans (Reg16.ofBytes_low_high s.pc)
  rw [hpc, hstack, ht]
  refine State.ext rfl ?_ ?_ ?_ hsp ?_ h.sig h.mem
  · exact h.stack (i := 3) (by decide)
  · exact h.stack (i := 4) (by decide)
  · exact h.stack (i := 5) (by decide)
  · exact (congrArg Cpu.restored (h.stack (i := 2) (by decide))).trans hflags

/-- **The handler** is transparent. -/
theorem nmi_transparent (hsig : AtNmi s.sig)
    (hrom : ∀ a, 0x8000 ≤ a.toNat → s.mem a = rom a)
    (hp : Placed rom (nmiVector rom) nmiHandler) : Code 21 s (nmiDone s) := by
  obtain ⟨hlines, hrti, -⟩ := placed_append.mp hp
  set t := entered (nmiVector rom) s with ht
  have hs₁ : Runs rom t := runs_entered hsig hrom _
  have hfits : FitsAll (nmiSave ++ nmiBody ++ nmiRestore) t :=
    fitsAll_append.mpr ⟨fitsAll_append.mpr ⟨fits_nmiSave _, fits_nmiBody _⟩, fits_nmiRestore _⟩
  have hcode := code_lines hs₁ hlines hfits
  have hs₂ := hs₁.code hcode
  have hrti' : Line.In ⟨.impld .rti, .impld, 0⟩ rom
      (runLines (nmiSave ++ nmiBody ++ nmiRestore) t).pc := by
    rw [runLines_pc hfits]; exact hrti
  have hreturn := line_rti hs₂ hrti'
  obtain ⟨f, hrestore⟩ := runLines_nmiRestore (runLines nmiBody (runLines nmiSave t))
  rw [← runLines_append, ← runLines_append] at hrestore
  have hend : (runLines (nmiSave ++ nmiBody ++ nmiRestore) t).step = nmiDone s := by
    rw [hreturn.2]
    exact (saved_body s _).restored hrestore
  exact Goes.head (step_entered hsig hrom) (hcode.trans (Goes.one ⟨hreturn.1, hend⟩))

/-- What the handler leaves alone. -/
theorem nmiDone_mem {a : Uint16} (hstack : ∀ j < 6, a ≠ stackAddr (s.sp - BitVec.ofNat 8 j))
    (hcell : a ∉ [nmiFlag, 0x2003, 0x4014, 0x2005, 0x2005]) : (nmiDone s).mem a = s.mem a := by
  refine stored_of_not_mem ?_ s.mem
  rintro w hw rfl
  rcases List.mem_append.mp hw with hw | hw
  · obtain ⟨j, hj, h⟩ := mem_pushed hw
    exact hstack j hj h
  · exact hcell (List.mem_map_of_mem hw)

theorem nmiDone_flag : (nmiDone s).mem nmiFlag = s.mem nmiFlag + 1 := by
  show stored s.mem (nmiStores s) nmiFlag = _
  have hrest : ∀ w ∈ (bodyStores s).tail, w.1 ≠ nmiFlag := by
    intro w hw heq
    have hw' : w.1 ∈ [0x2003, 0x4014, 0x2005, 0x2005] := List.mem_map_of_mem hw
    rw [heq] at hw'
    exact absurd hw' (by decide)
  have hcons : stored (stored s.mem (pushed s.sp
      [Reg16.high s.pc, Reg16.low s.pc, s.flags.toByte, s.acc, s.x, s.y])) (bodyStores s) =
      stored (Function.update (stored s.mem (pushed s.sp
        [Reg16.high s.pc, Reg16.low s.pc, s.flags.toByte, s.acc, s.x, s.y])) nmiFlag
          (s.mem nmiFlag + 1)) (bodyStores s).tail := rfl
  rw [nmiStores, stored_append, hcons, stored_of_not_mem hrest, Function.update_self]

theorem runs_nmiDone (hsig : AtNmi s.sig) (hrom : ∀ a, 0x8000 ≤ a.toNat → s.mem a = rom a) :
    Runs rom (nmiDone s) := by
  refine ⟨⟨rfl, hsig.execirq, rfl, hsig.irqpending⟩, ?_⟩
  intro a ha
  rw [nmiDone_mem, hrom a ha]
  · rintro j - rfl
    have hlt := stackAddr_lt (s.sp - BitVec.ofNat 8 j)
    omega
  · intro hmem
    have hlow : ∀ b ∈ [nmiFlag, 0x2003, 0x4014, 0x2005, 0x2005], b.toNat < 0x8000 := by
      simp [nmiFlag]
    have hlt := hlow a hmem
    omega

end Handler

end Yanesemu.Isa
