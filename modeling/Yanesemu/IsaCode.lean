import Yanesemu.EmulatorIsa
import Yanesemu.Lib.MachineCode

/-!
# Assembly code on the machine

A `Line` is a line of assembly: an operation, its mode and its operand. `Placed` says that the
assembled lines lie in memory one after the other. The lemmas of this module say what the machine
does at a line that lies in the PRG ROM, and that the step is private, so that whatever is proved
of a routine (`Goes`) holds in the emulator too.

Nothing is pending or about to be entered while a routine runs (`Quiet`).
-/

namespace Yanesemu.Isa

open Interaction EventRun Cpu MachineCode
open Emulator (Private Readable Writable)

/-! ## Lines -/

/-- A line of assembly. An operand byte is the low byte of `arg`. -/
structure Line where
  op : Operation
  mode : AddrMode
  arg : Uint16 := 0
  deriving DecidableEq, Repr

namespace Line

def size (l : Line) : ℕ := l.mode.numBytes

/-- The line lies at `a`: its opcode, then its operand, the low byte first. -/
structure At (l : Line) (m : Mem) (a : Uint16) : Prop where
  opcode : manual (m a) = some (l.op, l.mode)
  low : 2 ≤ l.size → m (a + 1) = Reg16.low l.arg
  high : l.size = 3 → m (a + 2) = Reg16.high l.arg

/-- The line lies in the PRG ROM. -/
structure In (l : Line) (rom : Mem) (a : Uint16) : Prop extends At l rom a where
  start : 0x8000 ≤ a.toNat
  stop : a.toNat + l.size ≤ 0x10000

instance (l : Line) (m : Mem) (a : Uint16) : Decidable (l.At m a) :=
  decidable_of_iff
    (manual (m a) = some (l.op, l.mode) ∧ (2 ≤ l.size → m (a + 1) = Reg16.low l.arg) ∧
      (l.size = 3 → m (a + 2) = Reg16.high l.arg))
    ⟨fun ⟨h, hlow, hhigh⟩ => ⟨h, hlow, hhigh⟩, fun h => ⟨h.opcode, h.low, h.high⟩⟩

instance (l : Line) (rom : Mem) (a : Uint16) : Decidable (l.In rom a) :=
  decidable_of_iff (l.At rom a ∧ 0x8000 ≤ a.toNat ∧ a.toNat + l.size ≤ 0x10000)
    ⟨fun ⟨h, hstart, hstop⟩ => ⟨h, hstart, hstop⟩, fun h => ⟨h.toAt, h.start, h.stop⟩⟩

/-- Only the PRG ROM matters. -/
theorem In.congr {l : Line} {rom rom' : Mem} {a : Uint16} (h : l.In rom a)
    (hrom : ∀ b, 0x8000 ≤ b.toNat → rom b = rom' b) : l.In rom' a := by
  have hstart := h.start
  have hstop := h.stop
  refine ⟨⟨?_, fun hsize => ?_, fun hsize => ?_⟩, hstart, hstop⟩
  · rw [← hrom a hstart]
    exact h.opcode
  · rw [← hrom]
    · exact h.low hsize
    · bv_omega
  · rw [← hrom]
    · exact h.high hsize
    · bv_omega

end Line

/-- Lines that lie one after the other. -/
def Placed (rom : Mem) : Uint16 → List Line → Prop
  | _, [] => True
  | a, l :: ls => l.In rom a ∧ Placed rom (a + BitVec.ofNat 16 l.size) ls

instance decidablePlaced (rom : Mem) : (a : Uint16) → (ls : List Line) → Decidable (Placed rom a ls)
  | _, [] => isTrue trivial
  | a, l :: ls =>
    haveI := decidablePlaced rom (a + BitVec.ofNat 16 l.size) ls
    inferInstanceAs (Decidable (l.In rom a ∧ Placed rom (a + BitVec.ofNat 16 l.size) ls))

theorem Placed.congr {rom rom' : Mem} {a : Uint16} {ls : List Line} (h : Placed rom a ls)
    (hrom : ∀ b, 0x8000 ≤ b.toNat → rom b = rom' b) : Placed rom' a ls := by
  induction ls generalizing a with
  | nil => trivial
  | cons l ls ih => exact ⟨h.1.congr hrom, ih h.2⟩

theorem placed_append {rom : Mem} {a : Uint16} {ls ls' : List Line} :
    Placed rom a (ls ++ ls') ↔
      Placed rom a ls ∧ Placed rom (a + BitVec.ofNat 16 (ls.map Line.size).sum) ls' := by
  induction ls generalizing a with
  | nil => simp [Placed]
  | cons l ls ih =>
    rw [List.cons_append, Placed, Placed, ih, and_assoc, List.map_cons, List.sum_cons,
      BitVec.ofNat_add, BitVec.add_assoc]

/-! ## States that run code -/

/-- No interrupt is pending or about to be entered. -/
structure Quiet (i : Signals) : Prop where
  execnmi : i.execnmi = false
  execirq : i.execirq = false
  nmipending : i.nmipending = false
  irqpending : i.irqpending = false

theorem Quiet.polled {i : Signals} (h : Quiet i) (b : Bool) : i.polled b = i := by
  simp [Signals.polled, Signals.nmipoll, Signals.irqpoll, h.nmipending, h.irqpending]

/-- The machine runs a program from the PRG ROM `rom`. -/
structure Runs (rom : Mem) (s : State) : Prop where
  quiet : Quiet s.sig
  rom : ∀ a, 0x8000 ≤ a.toNat → s.mem a = rom a

namespace State

/-- The address an operand stands for. -/
def target (s : State) (arg : Uint16) : AddrMode → Uint16
  | .zero => zp (Reg16.low arg)
  | .zerox => zp (Reg16.low arg) + zp s.x
  | .zeroy => zp (Reg16.low arg) + zp s.y
  | .abs => arg
  | .absx => arg + zp s.x
  | .absy => arg + zp s.y
  | _ => s.pc + 1

/-- The modes whose operand lies where the line says. -/
def Direct : AddrMode → Prop
  | .zero | .zerox | .zeroy | .abs | .absx | .absy => True
  | _ => False

/-- The machine as a CPU with its memory. -/
def toSys (s : State) : Sys Cpu Mem := ⟨{ r := s.regs, sig := s.sig }, s.mem⟩

@[simp] theorem view_toSys (s : State) : view s.toSys = s := rfl

/-- **The memory after a step.** -/
theorem step_mem (s : State) : s.step.mem = stored s.mem s.stores := by
  rw [← s.view_toSys, ← view_run, ← writes_view]
  exact env_eq_stored Cpu.run s.toSys

end State

open State

/-! ## Stores -/

section Stores

theorem stored_of_not_mem {ws : List Store} {a : Uint16} (ha : ∀ w ∈ ws, w.1 ≠ a) (m : Mem) :
    stored m ws a = m a := by
  induction ws generalizing m with
  | nil => rfl
  | cons w ws ih =>
    have hhead := ha w List.mem_cons_self
    have htail : ∀ w' ∈ ws, w'.1 ≠ a := fun w' hw' => ha w' (List.mem_cons_of_mem w hw')
    rw [show stored m (w :: ws) = stored (Function.update m w.1 w.2) ws from rfl, ih htail,
      Function.update_of_ne hhead.symm]

theorem stackAddr_toNat (b : Uint8) : (stackAddr b).toNat = b.toNat + 0x100 := by
  have hb := b.isLt
  rw [stackAddr, BitVec.toNat_add, BitVec.toNat_setWidth]
  show (b.toNat % 65536 + 256) % 65536 = _
  omega

theorem stackAddr_lt (b : Uint8) : (stackAddr b).toNat < 0x800 := by
  have hb := b.isLt
  rw [stackAddr_toNat]
  omega

theorem stored_append (m : Mem) (ws ws' : List Store) :
    stored m (ws ++ ws') = stored (stored m ws) ws' := List.foldl_append

/-- The cells of a push. -/
theorem mem_pushed {sp : Uint8} {vs : List Uint8} {w : Store} (hw : w ∈ pushed sp vs) :
    ∃ j < vs.length, w.1 = stackAddr (sp - BitVec.ofNat 8 j) := by
  induction vs generalizing sp with
  | nil => cases hw
  | cons v vs ih =>
    rcases List.mem_cons.mp hw with rfl | hw
    · exact ⟨0, Nat.succ_pos _, congrArg stackAddr (BitVec.sub_zero sp).symm⟩
    · obtain ⟨j, hj, h⟩ := ih hw
      refine ⟨j + 1, Nat.succ_lt_succ hj, ?_⟩
      rw [h, BitVec.ofNat_add, BitVec.sub_sub, BitVec.add_comm]
      rfl

/-- What has been pushed is there. -/
theorem stored_pushed {sp : Uint8} {vs : List Uint8} {i : ℕ} (hi : i < vs.length)
    (hlen : vs.length ≤ 0x100) (m : Mem) :
    stored m (pushed sp vs) (stackAddr (sp - BitVec.ofNat 8 i)) = vs[i] := by
  induction vs generalizing sp m i with
  | nil => exact absurd hi (Nat.not_lt_zero i)
  | cons v vs ih =>
    have hcons : stored m (pushed sp (v :: vs)) =
        stored (Function.update m (stackAddr sp) v) (pushed (sp - 1) vs) := rfl
    rw [hcons]
    cases i with
    | zero =>
      have hzero : sp - BitVec.ofNat 8 0 = sp := BitVec.sub_zero sp
      rw [hzero, stored_of_not_mem]
      · exact Function.update_self ..
      · intro w hw heq
        obtain ⟨j, hj, h⟩ := mem_pushed hw
        have hsp := congrArg BitVec.toNat (stackAddr_injective (h.symm.trans heq))
        have hlen' : vs.length + 1 ≤ 0x100 := hlen
        have hlt := sp.isLt
        rw [BitVec.toNat_sub, BitVec.toNat_sub, BitVec.toNat_ofNat] at hsp
        have hone : (1 : Uint8).toNat = 1 := rfl
        omega
    | succ i =>
      have hsub : sp - BitVec.ofNat 8 (i + 1) = sp - 1 - BitVec.ofNat 8 i := by
        rw [BitVec.ofNat_add, BitVec.sub_sub, BitVec.add_comm]; rfl
      rw [hsub, ih (Nat.lt_of_succ_lt_succ hi) (Nat.le_of_succ_le hlen)]
      rfl

theorem pushed_append (sp : Uint8) (vs vs' : List Uint8) :
    pushed sp (vs ++ vs') = pushed sp vs ++ pushed (sp - BitVec.ofNat 8 vs.length) vs' := by
  induction vs generalizing sp with
  | nil => exact congrArg (pushed · vs') (BitVec.sub_zero sp).symm
  | cons v vs ih =>
    have hsp : sp - BitVec.ofNat 8 (vs.length + 1) = sp - 1 - BitVec.ofNat 8 vs.length := by
      rw [BitVec.ofNat_add, BitVec.sub_sub, BitVec.add_comm]; rfl
    rw [List.cons_append, pushed, ih, List.length_cons, hsp]
    rfl

/-- A push leaves the PRG ROM alone. -/
theorem stored_pushed_rom {sp : Uint8} {vs : List Uint8} {a : Uint16} (ha : 0x8000 ≤ a.toNat)
    (m : Mem) : stored m (pushed sp vs) a = m a := by
  refine stored_of_not_mem ?_ m
  rintro w hw rfl
  obtain ⟨j, -, h⟩ := mem_pushed hw
  have hlt := stackAddr_lt (sp - BitVec.ofNat 8 j)
  rw [← h] at hlt
  omega

/-- A push leaves what is not in the stack page alone. -/
theorem stored_pushed_outside {sp : Uint8} {vs : List Uint8} {a : Uint16}
    (ha : a.toNat < 0x100 ∨ 0x200 ≤ a.toNat) (m : Mem) : stored m (pushed sp vs) a = m a := by
  refine stored_of_not_mem ?_ m
  rintro w hw rfl
  obtain ⟨j, -, h⟩ := mem_pushed hw
  have hb := (sp - BitVec.ofNat 8 j).isLt
  rw [h, stackAddr_toNat] at ha
  omega

end Stores

/-! ## Steps keep the program -/

theorem Quiet.enter {i : Signals} (h : Quiet i) : Quiet i.enter := by
  have hn := h.nmipending
  have hi := h.irqpending
  cases hreset : i.resetpending <;>
    exact ⟨by simp [Signals.enter, Signals.entry, h.execnmi, hn, hi, hreset],
      by simp [Signals.enter, Signals.entry, h.execirq, hn, hi, hreset],
      by simp [Signals.enter, Signals.entry, hn, hi, hreset],
      by simp [Signals.enter, Signals.entry, hn, hi, hreset]⟩

theorem exec_sig (s : State) (op : Operation) (mode : AddrMode) : (s.exec op mode).sig = s.sig := by
  cases op with
  | read name => cases name <;> rfl
  | modify name => cases mode <;> rfl
  | transfer src dst => cases dst <;> rfl
  | impld func => cases func <;> rfl
  | store | branch | flag => rfl

/-- An instruction changes the signals where it polls them and where it is BRK. -/
theorem instr_sig (s : State) (op : Operation) (mode : AddrMode) :
    (s.instr op mode).sig = s.sig.enter ∨ ∃ b, (s.instr op mode).sig = s.sig.polled b := by
  by_cases hbrk : op = .impld .brk
  · subst hbrk; exact .inl rfl
  by_cases hrti : op = .impld .rti
  · subst hrti; exact .inr ⟨_, rfl⟩
  have hinstr : s.instr op mode = (s.exec op mode).poll s.flags.intdis := by
    unfold State.instr
    split <;> first | rfl | contradiction
  rw [hinstr]
  exact .inr ⟨_, congrArg (Signals.polled _) (exec_sig s op mode)⟩

theorem Quiet.step {s : State} (h : Quiet s.sig) : Quiet s.step.sig := by
  cases hm : manual (s.mem s.pc) with
  | none => rw [step_undocumented h.execnmi h.execirq hm]; exact h
  | some p =>
    rw [step_of_manual h.execnmi h.execirq hm]
    rcases instr_sig s p.1 p.2 with hs | ⟨b, hs⟩
    · rw [hs]; exact h.enter
    · rw [hs, h.polled b]; exact h

/-- The interrupt sequence reads its vector and writes to the stack. -/
theorem private_interrupt {s : State} (hint : s.sig.execnmi = true ∨ s.sig.execirq = true) :
    Private s := by
  constructor
  · unfold State.reads
    rw [if_pos hint]
    exact List.forall_mem_cons.mpr
      ⟨.inr s.vector_rom.1, List.forall_mem_singleton.mpr (.inr s.vector_rom.2)⟩
  · unfold State.stores
    rw [if_pos hint]
    intro w hw
    obtain ⟨j, -, h⟩ := mem_pushed hw
    exact .inl (h ▸ stackAddr_lt _)

theorem reads_of_manual {s : State} (hn : s.sig.execnmi = false) (hi : s.sig.execirq = false)
    {op : Operation} {mode : AddrMode} (hm : manual (s.mem s.pc) = some (op, mode)) :
    s.reads = s.pc :: s.cells op mode ∧ s.stores = op.stores s.regs s.mem mode := by
  have hno : ¬(s.sig.execnmi = true ∨ s.sig.execirq = true) := by simp [hn, hi]
  unfold State.reads State.stores
  rw [if_neg hno, if_neg hno, hm]
  exact ⟨rfl, rfl⟩

/-- A private step leaves the program where it is. -/
theorem Runs.step {rom : Mem} {s : State} (hs : Runs rom s) (hp : Private s) :
    Runs rom s.step := by
  refine ⟨hs.quiet.step, ?_⟩
  intro a ha
  rw [step_mem, stored_of_not_mem, hs.rom a ha]
  rintro w hw rfl
  rcases hp.stores w hw with h | h <;> omega

theorem Runs.next {rom : Mem} {s t : State} (hs : Runs rom s) (h : Private s ∧ s.step = t) :
    Runs rom t := by
  rw [← h.2]
  exact hs.step h.1

/-! ## Lines in memory -/

section At

variable {rom : Mem} {s : State} {l : Line}

/-- A program that runs has its lines in memory. -/
theorem Runs.at (hs : Runs rom s) (hl : l.In rom s.pc) : l.At s.mem s.pc := by
  have hpc := hl.start
  have hstop := hl.stop
  have hone (h : 2 ≤ l.size) : (s.pc + 1).toNat = s.pc.toNat + 1 := by
    rw [BitVec.toNat_add]; show (s.pc.toNat + 1) % 65536 = _; omega
  have htwo (h : l.size = 3) : (s.pc + 2).toNat = s.pc.toNat + 2 := by
    rw [BitVec.toNat_add]; show (s.pc.toNat + 2) % 65536 = _; omega
  refine ⟨?_, ?_, ?_⟩
  · rw [hs.rom _ hpc]; exact hl.opcode
  · intro h
    rw [hs.rom _ (by rw [hone h]; omega)]
    exact hl.low h
  · intro h
    rw [hs.rom _ (by rw [htwo h]; omega)]
    exact hl.high h

theorem Line.At.word (hl : l.At s.mem s.pc) (h : l.size = 3) : s.word (s.pc + 1) = l.arg := by
  have hlow := hl.low (by omega)
  have hhigh := hl.high h
  rw [State.word, show s.pc + 1 + 1 = s.pc + 2 from add_one_add_one _, hlow, hhigh]
  exact Reg16.ofBytes_low_high l.arg

theorem address_eq_target (hl : l.At s.mem s.pc) (hd : Direct l.mode) :
    s.address l.mode = s.target l.arg l.mode := by
  obtain ⟨op, mode, arg⟩ := l
  have hlow (h : 2 ≤ mode.numBytes) : s.mem (s.pc + 1) = Reg16.low arg := hl.low h
  have hword (h : mode.numBytes = 3) :
      Reg16.ofBytes (s.mem (s.pc + 1)) (s.mem (s.pc + 1 + 1)) = arg := hl.word h
  cases mode with
  | zero => exact congrArg zp (hlow (by decide))
  | zerox => exact congrArg (zp · + zp s.x) (hlow (by decide))
  | zeroy => exact congrArg (zp · + zp s.y) (hlow (by decide))
  | abs => exact hword rfl
  | absx => exact congrArg (· + zp s.x) (hword rfl)
  | absy => exact congrArg (· + zp s.y) (hword rfl)
  | impld | accum | branch | imm | ind | indx | indy => exact hd.elim

/-- The bytes of a line may be read. -/
theorem operandCells_readable (hl : l.In rom s.pc) :
    ∀ a ∈ s.operandCells l.mode, Readable a := by
  have hstart := hl.start
  have hstop := hl.stop
  unfold Line.size at hstop
  have hone (h : 2 ≤ l.mode.numBytes) : Readable (s.pc + 1) := by
    have hpc : (s.pc + 1).toNat = s.pc.toNat + 1 := by
      rw [BitVec.toNat_add]; show (s.pc.toNat + 1) % 65536 = _; omega
    exact .inr (by omega)
  have htwo (h : l.mode.numBytes = 3) : Readable (s.pc + 2) := by
    have hpc : (s.pc + 2).toNat = s.pc.toNat + 2 := by
      rw [BitVec.toNat_add]; show (s.pc.toNat + 2) % 65536 = _; omega
    exact .inr (by omega)
  intro a ha
  unfold State.operandCells at ha
  split at ha
  next h => rw [List.mem_singleton.mp ha]; exact hone (by omega)
  next h =>
    rcases List.mem_pair.mp ha with rfl | rfl
    · exact hone (by omega)
    · exact htwo h
  next => exact absurd ha List.not_mem_nil

end At

theorem zp_lt (b : Uint8) : (zp b).toNat < 0x800 := by
  have hb := b.isLt
  rw [zp, BitVec.toNat_setWidth]
  omega

/-! ## Steps -/

section Step

variable {rom : Mem} {s : State}

theorem poll_of_quiet {t : State} (h : Quiet t.sig) (b : Bool) : t.poll b = t := by
  unfold State.poll
  rw [h.polled b]

/-- What the machine does at a line. -/
theorem step_line {l : Line} (hs : Runs rom s) (hl : l.In rom s.pc) (hbrk : l.op ≠ .impld .brk) :
    s.step = s.exec l.op l.mode := by
  have hquiet : Quiet (s.exec l.op l.mode).sig := by
    rw [exec_sig]; exact hs.quiet
  rw [step_of_manual hs.quiet.execnmi hs.quiet.execirq (hs.at hl).opcode]
  by_cases hrti : l.op = .impld .rti
  · rw [hrti] at hquiet ⊢
    exact poll_of_quiet hquiet _
  · have hinstr : s.instr l.op l.mode = (s.exec l.op l.mode).poll s.flags.intdis := by
      unfold State.instr
      split <;> first | rfl | contradiction
    rw [hinstr]
    exact poll_of_quiet hquiet _

/-- What keeps a line private. -/
theorem private_line {l : Line} (hs : Runs rom s) (hl : l.In rom s.pc)
    (hr : ∀ a ∈ s.cells l.op l.mode, Readable a)
    (hw : ∀ w ∈ l.op.stores s.regs s.mem l.mode, Writable w.1) : Private s := by
  obtain ⟨hreads, hstores⟩ :=
    reads_of_manual hs.quiet.execnmi hs.quiet.execirq (hs.at hl).opcode
  refine ⟨?_, ?_⟩
  · rw [hreads]
    exact List.forall_mem_cons.mpr ⟨.inr hl.start, hr⟩
  · rw [hstores]
    exact hw

variable (hs : Runs rom s)
include hs

theorem line_imm {name : InstrRead} {arg : Uint16}
    (hl : Line.In ⟨.read name, .imm, arg⟩ rom s.pc) :
    Private s ∧ s.step = { s.read (Reg16.low arg) name with pc := s.pc + 2 } := by
  refine ⟨private_line hs hl (operandCells_readable hl) (List.forall_mem_nil _), ?_⟩
  have harg : s.mem (s.address .imm) = Reg16.low arg := (hs.at hl).low (Nat.le_refl 2)
  rw [step_line hs hl (by simp), State.exec, harg]
  rfl

section Direct

variable {mode : AddrMode} {arg : Uint16} (hd : Direct mode)
include hd

theorem line_read {name : InstrRead} (hl : Line.In ⟨.read name, mode, arg⟩ rom s.pc)
    (hr : Readable (s.target arg mode)) :
    Private s ∧ s.step =
      { s.read (s.mem (s.target arg mode)) name with pc := s.next mode } := by
  have haddr := address_eq_target (hs.at hl) hd
  have hcells : s.cells (.read name) mode = s.operandCells mode ++ [s.target arg mode] := by
    rw [← haddr]
    cases mode <;> first | exact hd.elim | rfl
  refine ⟨private_line hs hl ?_ (List.forall_mem_nil _), ?_⟩
  · rw [hcells]
    exact List.forall_mem_append.mpr ⟨operandCells_readable hl, List.forall_mem_singleton.mpr hr⟩
  · rw [step_line hs hl (by simp), State.exec, haddr]

theorem line_store {r : Reg8} (hl : Line.In ⟨.store r, mode, arg⟩ rom s.pc)
    (hw : Writable (s.target arg mode)) :
    Private s ∧ s.step =
      { s with mem := Function.update s.mem (s.target arg mode) (s.reg r), pc := s.next mode } := by
  have haddr : s.address mode = s.target arg mode := address_eq_target (hs.at hl) hd
  have hw' : Writable (s.address mode) := by rwa [haddr]
  have hcells : s.cells (.store r) mode = s.operandCells mode := by
    cases mode <;> first | exact hd.elim | rfl
  refine ⟨private_line hs hl ?_ ?_, ?_⟩
  · rw [hcells]; exact operandCells_readable hl
  · exact List.forall_mem_singleton.mpr hw'
  · rw [step_line hs hl (by simp), State.exec, haddr]

theorem line_modify {name : InstrMod} (hl : Line.In ⟨.modify name, mode, arg⟩ rom s.pc)
    (hr : Readable (s.target arg mode)) (hw : Writable (s.target arg mode)) :
    Private s ∧ s.step =
      { s.modify (s.mem (s.target arg mode)) name with
        mem := Function.update s.mem (s.target arg mode)
          (s.result (s.mem (s.target arg mode)) name)
        pc := s.next mode } := by
  have haddr : s.address mode = s.target arg mode := address_eq_target (hs.at hl) hd
  have hw' : Writable (s.address mode) := by rwa [haddr]
  have hcells : s.cells (.modify name) mode = s.operandCells mode ++ [s.target arg mode] := by
    rw [← haddr]
    cases mode <;> first | exact hd.elim | rfl
  have hmode : mode ≠ .accum := by rintro rfl; exact hd
  refine ⟨private_line hs hl ?_ ?_, ?_⟩
  · rw [hcells]
    exact List.forall_mem_append.mpr ⟨operandCells_readable hl, List.forall_mem_singleton.mpr hr⟩
  · show ∀ w ∈ Operation.stores s.regs s.mem mode (.modify name), Writable w.1
    simp only [Operation.stores, if_neg hmode]
    exact List.forall_mem_singleton.mpr hw'
  · rw [step_line hs hl (by simp)]
    show s.exec (.modify name) mode = _
    rw [← haddr]
    cases mode <;> first | exact hd.elim | rfl

end Direct

theorem line_branch {f : Flag} {v : Bool} {arg : Uint16}
    (hl : Line.In ⟨.branch f v, .branch, arg⟩ rom s.pc) :
    Private s ∧ s.step =
      { s with pc := if f.get s.flags = v then s.pc + 2 + (Reg16.low arg).signExtend 16
          else s.pc + 2 } := by
  refine ⟨private_line hs hl (operandCells_readable hl) (List.forall_mem_nil _), ?_⟩
  have harg : s.mem (s.pc + 1) = Reg16.low arg := (hs.at hl).low (Nat.le_refl 2)
  rw [step_line hs hl (by simp), State.exec, harg]

theorem line_jsr {arg : Uint16} (hl : Line.In ⟨.impld .jsr, .abs, arg⟩ rom s.pc) :
    Private s ∧ s.step =
      { (s.push (Reg16.high (s.pc + 2))).push (Reg16.low (s.pc + 2)) with pc := arg } := by
  refine ⟨private_line hs hl (operandCells_readable hl) ?_, ?_⟩
  · intro w hw
    rcases List.mem_pair.mp hw with rfl | rfl <;> exact .inl (stackAddr_lt _)
  · have hword := (hs.at hl).word rfl
    rw [step_line hs hl (by simp)]
    exact congrArg (fun a => { (s.push (Reg16.high (s.pc + 2))).push (Reg16.low (s.pc + 2)) with
      pc := a }) hword

theorem line_rts (hl : Line.In ⟨.impld .rts, .impld, 0⟩ rom s.pc) :
    Private s ∧ s.step =
      { s with pc := Reg16.ofBytes (s.stack 1) (s.stack 2) + 1, sp := s.sp + 2 } := by
  refine ⟨private_line hs hl ?_ (List.forall_mem_nil _), step_line hs hl (by simp)⟩
  intro a ha
  rcases List.mem_pair.mp ha with rfl | rfl <;> exact .inl (stackAddr_lt _)

theorem line_jmp {arg : Uint16} (hl : Line.In ⟨.impld .jmp, .abs, arg⟩ rom s.pc) :
    Private s ∧ s.step = { s with pc := arg } := by
  refine ⟨private_line hs hl (operandCells_readable hl) (List.forall_mem_nil _), ?_⟩
  have hword := (hs.at hl).word rfl
  rw [step_line hs hl (by simp)]
  exact congrArg (fun a => { s with pc := a }) hword

theorem line_rti (hl : Line.In ⟨.impld .rti, .impld, 0⟩ rom s.pc) :
    Private s ∧ s.step = { s with
      flags := restored (s.stack 1), pc := Reg16.ofBytes (s.stack 2) (s.stack 3),
      sp := s.sp + 3 } := by
  refine ⟨private_line hs hl ?_ (List.forall_mem_nil _), step_line hs hl (by simp)⟩
  intro a ha
  rcases List.mem_cons.mp ha with rfl | ha
  · exact .inl (stackAddr_lt _)
  · rcases List.mem_pair.mp ha with rfl | rfl <;> exact .inl (stackAddr_lt _)

end Step

/-- Code on this machine. -/
abbrev Code (n : ℕ) (s t : State) : Prop := Goes State.step Private n s t

/-- The program is still there when the code has run. -/
theorem Runs.code {rom : Mem} {n : ℕ} {s t : State} (hs : Runs rom s) (h : Code n s t) :
    Runs rom t := h.keeps (fun _ hG hF => hF.step hG) hs

/-! ## Straight lines -/

namespace Line

/-- What a line does that runs on to the next. -/
def run (l : Line) (s : State) : State :=
  match l.op with
  | .read name =>
    let v := if l.mode = .imm then Reg16.low l.arg else s.mem (s.target l.arg l.mode)
    { s.read v name with pc := s.next l.mode }
  | .store r =>
    { s with mem := Function.update s.mem (s.target l.arg l.mode) (s.reg r), pc := s.next l.mode }
  | .modify name =>
    let a := s.target l.arg l.mode
    { s.modify (s.mem a) name with
      mem := Function.update s.mem a (s.result (s.mem a) name), pc := s.next l.mode }
  | op => s.exec op l.mode

/-- The operations among them that have no operand. -/
def Short : InstrImpld → Prop
  | .inx | .iny | .dex | .dey | .pha | .pla | .nop => True
  | _ => False

/-- The line runs on to the next and is private. -/
def Fits (l : Line) (s : State) : Prop :=
  match l.op with
  | .read _ => l.mode = .imm ∨ Direct l.mode ∧ Readable (s.target l.arg l.mode)
  | .store _ => Direct l.mode ∧ Writable (s.target l.arg l.mode)
  | .modify _ =>
    Direct l.mode ∧ Readable (s.target l.arg l.mode) ∧ Writable (s.target l.arg l.mode)
  | .flag .. | .transfer .. => True
  | .impld func => Short func
  | .branch .. => False

end Line

section Straight

variable {rom : Mem} {s : State}

theorem line_run (hs : Runs rom s) {l : Line} (hl : l.In rom s.pc) (hf : l.Fits s) :
    Private s ∧ s.step = l.run s := by
  obtain ⟨op, mode, arg⟩ := l
  cases op with
  | read name =>
    rcases hf with himm | ⟨hd, hr⟩
    · cases himm; exact line_imm hs hl
    · have hmode : mode ≠ .imm := by rintro rfl; exact hd
      have h := line_read hs hd hl hr
      rw [Line.run, if_neg hmode]
      exact h
  | store r => exact line_store hs hf.1 hl hf.2
  | modify name => exact line_modify hs hf.1 hl hf.2.1 hf.2.2
  | flag | transfer =>
    exact ⟨private_line hs hl (List.forall_mem_nil _) (List.forall_mem_nil _),
      step_line hs hl (by simp)⟩
  | impld func =>
    have hbrk : (⟨.impld func, mode, arg⟩ : Line).op ≠ .impld .brk := by rintro ⟨⟩; exact hf
    refine ⟨private_line hs hl ?_ ?_, step_line hs hl hbrk⟩
    · cases func with
      | pla => exact List.forall_mem_singleton.mpr (.inl (stackAddr_lt _))
      | inx | iny | dex | dey | pha | nop => exact List.forall_mem_nil _
      | _ => exact hf.elim
    · cases func with
      | pha => exact List.forall_mem_singleton.mpr (.inl (stackAddr_lt _))
      | inx | iny | dex | dey | pla | nop => exact List.forall_mem_nil _
      | _ => exact hf.elim
  | branch f v => exact hf.elim

theorem run_pc {l : Line} (hf : l.Fits s) : (l.run s).pc = s.pc + BitVec.ofNat 16 l.size := by
  obtain ⟨op, mode, arg⟩ := l
  cases op with
  | read | store | modify | flag | transfer => rfl
  | branch f v => exact hf.elim
  | impld func =>
    cases func with
    | inx | iny | dex | dey | pha | pla | nop => rfl
    | _ => exact hf.elim

/-- What a sequence of lines does. -/
def runLines : List Line → State → State
  | [], s => s
  | l :: ls, s => runLines ls (l.run s)

/-- Each of the lines fits when the machine comes to it. -/
def FitsAll : List Line → State → Prop
  | [], _ => True
  | l :: ls, s => l.Fits s ∧ FitsAll ls (l.run s)

/-- **Straight lines** are run one after the other. -/
theorem code_lines {ls : List Line} (hs : Runs rom s) (hp : Placed rom s.pc ls)
    (hf : FitsAll ls s) : Code ls.length s (runLines ls s) := by
  induction ls generalizing s with
  | nil => exact Goes.refl s
  | cons l ls ih =>
    have hrun := line_run hs hp.1 hf.1
    have hs' := hs.next hrun
    have hp' : Placed rom (l.run s).pc ls := by rw [run_pc hf.1]; exact hp.2
    exact Goes.head hrun (ih hs' hp' hf.2)

theorem runLines_pc {ls : List Line} (hf : FitsAll ls s) :
    (runLines ls s).pc = s.pc + BitVec.ofNat 16 (ls.map Line.size).sum := by
  induction ls generalizing s with
  | nil => exact (BitVec.add_zero s.pc).symm
  | cons l ls ih =>
    rw [runLines, ih hf.2, run_pc hf.1, List.map_cons, List.sum_cons, BitVec.ofNat_add,
      BitVec.add_assoc]

theorem runLines_append (ls ls' : List Line) (s : State) :
    runLines (ls ++ ls') s = runLines ls' (runLines ls s) := by
  induction ls generalizing s with
  | nil => rfl
  | cons l ls ih => exact ih (l.run s)

theorem fitsAll_append {ls ls' : List Line} :
    FitsAll (ls ++ ls') s ↔ FitsAll ls s ∧ FitsAll ls' (runLines ls s) := by
  induction ls generalizing s with
  | nil => exact (iff_of_eq (true_and _)).symm
  | cons l ls ih => rw [List.cons_append, FitsAll, ih, ← and_assoc]; rfl

end Straight

end Yanesemu.Isa
