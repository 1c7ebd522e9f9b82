import Yanesemu.EmulatorCode
import Yanesemu.TestRomNmi

/-!
# The main loop of the test ROM

`waitnmi` of `testrom/test.asm` waits until the interrupt handler has counted another NMI, so the
main loop is meant to go round once in each frame. `mainloop_frame` is that property, of the
emulator: from the top of the main loop, a little before a vertical blank at the latest, the
emulator comes to the top of the loop again, with one more vertical blank and one more in
`nmi_flag`.

The wait ends because the PPU gets to the vertical blank (`wait_ends`), the handler comes back to
where the wait was interrupted (`nmi_transparent`), and there is time for the rest of the loop
before the next vertical blank.
-/

namespace Yanesemu.Isa

open Cpu MachineCode
open Emulator (Private Readable Writable)

/-! ## The code -/

/-- `jsr waitnmi`, `jsr joypad_poll`, `jsr gamecode`, `jmp mainloop`. -/
def mainloop (waitnmi joypad gamecode self : Uint16) : List Line :=
  [⟨.impld .jsr, .abs, waitnmi⟩, ⟨.impld .jsr, .abs, joypad⟩, ⟨.impld .jsr, .abs, gamecode⟩,
    ⟨.impld .jmp, .abs, self⟩]

/-- `lda nmi_flag`, `cmp nmi_flag`, `beq` back to the comparison, `rts`. -/
def waitnmi : List Line :=
  [⟨.read .lda, .zero, nmiFlag⟩, ⟨.read .cmp, .zero, nmiFlag⟩, ⟨.branch .zero true, .branch, 0xFC⟩,
    ⟨.impld .rts, .impld, 0⟩]

/-- The routines lie in the ROM, `mainloop` at `m` and `waitnmi` at `w`. -/
structure MainCode (rom : Mem) (m w joypad gamecode : Uint16) : Prop where
  mainloop : Placed rom m (mainloop w joypad gamecode m)
  waitnmi : Placed rom w waitnmi
  joypad : Line.In ⟨.impld .rts, .impld, 0⟩ rom joypad
  gamecode : Line.In ⟨.impld .rts, .impld, 0⟩ rom gamecode
  nmi : Placed rom (nmiVector rom) nmiHandler

/-! ## The wait -/

/-- RAM that the main loop and the handler do not touch. -/
def Untouched (a : Uint16) : Prop :=
  (a.toNat < 0x100 ∨ 0x200 ≤ a.toNat ∧ a.toNat < 0x800) ∧ a ≠ nmiFlag

/-- In the loop of `waitnmi`, called from `mainloop` at `m` with the stack pointer `base`: `v` is
what `nmi_flag` was when the wait began and `v'` what it is. `mem` is the memory then. -/
structure Waiting (rom mem : Mem) (m w : Uint16) (base v v' : Uint8) (s : State) : Prop where
  runs : Runs rom s
  reset : s.sig.resetpending = false
  pc : s.pc = w + 2 ∨ s.pc = w + 4 ∧ s.flags.zero = true
  acc : s.acc = v
  flag : s.mem nmiFlag = v'
  sp : s.sp = base - 2
  low : s.mem (stackAddr (base - 1)) = Reg16.low (m + 2)
  high : s.mem (stackAddr base) = Reg16.high (m + 2)
  kept : ∀ a, Untouched a → s.mem a = mem a

/-- At the top of the main loop. -/
structure AtMain (rom mem : Mem) (m : Uint16) (base v : Uint8) (s : State) : Prop where
  runs : Runs rom s
  reset : s.sig.resetpending = false
  pc : s.pc = m
  flag : s.mem nmiFlag = v
  sp : s.sp = base
  kept : ∀ a, Untouched a → s.mem a = mem a

section Wait

variable {rom mem : Mem} {m w joypad gamecode : Uint16} {base v v' : Uint8} {s : State}

theorem readable_nmiFlag (s : State) : Readable (s.target nmiFlag .zero) := .inl (zp_lt _)

/-- The comparison. -/
theorem line_cmp (hs : Runs rom s) (hl : Line.In ⟨.read .cmp, .zero, nmiFlag⟩ rom s.pc) :
    Private s ∧ s.step = { s.compare .acc (s.mem nmiFlag) with pc := s.pc + 2 } :=
  line_read hs (show State.Direct .zero from trivial) hl (readable_nmiFlag s)

/-- The branch back to the comparison. -/
theorem line_beq (hc : MainCode rom m w joypad gamecode) (hs : Runs rom s) (hpc : s.pc = w + 4)
    (hz : s.flags.zero = true) : Private s ∧ s.step = { s with pc := w + 2 } := by
  obtain ⟨-, -, hbeq, -⟩ := hc.waitnmi
  have hat : s.pc = w + BitVec.ofNat 16 2 + BitVec.ofNat 16 2 := by
    rw [hpc, BitVec.add_assoc]; rfl
  have hline := line_branch hs (hat ▸ hbeq)
  have hback : s.pc + 2 + (Reg16.low 0xFC).signExtend 16 = w + 2 := by
    rw [hpc, BitVec.add_assoc, BitVec.add_assoc]; rfl
  exact ⟨hline.1, hline.2.trans
    (congrArg (fun a => { s with pc := a }) ((if_pos hz).trans hback))⟩

/-- **One step of the wait**, as long as the flag is what it was. -/
theorem Waiting.step (hc : MainCode rom m w joypad gamecode)
    (h : Waiting rom mem m w base v v s) : Private s ∧ Waiting rom mem m w base v v s.step := by
  rcases h.pc with hpc | ⟨hpc, hz⟩
  · obtain ⟨-, hcmp, -⟩ := hc.waitnmi
    have hline := line_cmp h.runs (hpc ▸ hcmp)
    have hruns := h.runs.next hline
    refine ⟨hline.1, ?_⟩
    rw [hline.2]
    have hnext : s.pc + 2 = w + 4 := by rw [hpc, BitVec.add_assoc]; rfl
    have hzero : decide (s.acc = s.mem nmiFlag) = true :=
      decide_eq_true (h.acc.trans h.flag.symm)
    exact ⟨hruns, h.reset, .inr ⟨hnext, hzero⟩, h.acc, h.flag, h.sp, h.low, h.high, h.kept⟩
  · have hline := line_beq hc h.runs hpc hz
    have hruns := h.runs.next hline
    refine ⟨hline.1, ?_⟩
    rw [hline.2]
    exact ⟨hruns, h.reset, .inl rfl, h.acc, h.flag, h.sp, h.low, h.high, h.kept⟩

/-! ### The NMI -/

/-- The machine does not look at the signals but where it polls them. -/
theorem exec_withSig (s : State) (i : Signals) (op : Operation) (mode : AddrMode) :
    ({ s with sig := i } : State).exec op mode = { s.exec op mode with sig := i } := by
  cases op with
  | read name => cases name <;> rfl
  | modify name => cases mode <;> rfl
  | transfer src dst => cases dst <;> rfl
  | impld func => cases func <;> rfl
  | store | branch | flag => rfl

theorem cells_withSig (s : State) (i : Signals) {op : Operation} (hbrk : op ≠ .impld .brk)
    (mode : AddrMode) : ({ s with sig := i } : State).cells op mode = s.cells op mode := by
  cases op with
  | impld func => cases func <;> first | rfl | exact absurd rfl hbrk
  | modify name => cases mode <;> rfl
  | read name => cases mode <;> rfl
  | store | branch | flag | transfer => rfl

/-- A line that finds an NMI pending does what it does, and the NMI is entered next. -/
theorem step_fired (hs : Runs rom s) {l : Line} (hl : l.In rom s.pc) (hp : Private s)
    (hbrk : l.op ≠ .impld .brk) (hrti : l.op ≠ .impld .rti) :
    Private (s.call .fireNmi) ∧ (s.call .fireNmi).step =
      { s.step with sig := { s.sig with nmipending := true, execnmi := true } } := by
  obtain ⟨hn, hi, -, hip⟩ := hs.quiet
  have hm := (hs.at hl).opcode
  obtain ⟨hreads, hstores⟩ := reads_of_manual hn hi hm
  set i : Signals := { s.sig with nmipending := true } with hidef
  have hcall : s.call .fireNmi = { s with sig := i } := rfl
  rw [hcall]
  obtain ⟨hreads', hstores'⟩ := reads_of_manual (s := { s with sig := i }) hn hi hm
  rw [cells_withSig s i hbrk] at hreads'
  refine ⟨⟨?_, ?_⟩, ?_⟩
  · rw [hreads', ← hreads]; exact hp.reads
  · rw [hstores']; exact hstores ▸ hp.stores
  · have hinstr : ({ s with sig := i } : State).instr l.op l.mode =
        (({ s with sig := i } : State).exec l.op l.mode).poll s.flags.intdis := by
      unfold State.instr
      split <;> first | rfl | contradiction
    rw [State.step_of_manual (s := { s with sig := i }) hn hi hm, hinstr, exec_withSig,
      step_line hs hl hbrk]
    have hpoll : i.polled s.flags.intdis =
        { s.sig with nmipending := true, execnmi := true } := by
      simp [Signals.polled, Signals.nmipoll, Signals.irqpoll, hidef, hn, hip]
    exact congrArg (fun j => { s.exec l.op l.mode with sig := j }) hpoll

/-- The lines of the wait. -/
theorem Waiting.line (hc : MainCode rom m w joypad gamecode)
    (h : Waiting rom mem m w base v v' s) :
    ∃ l : Line, l.In rom s.pc ∧ l.op ≠ .impld .brk ∧ l.op ≠ .impld .rti := by
  obtain ⟨-, hcmp, hbeq, -⟩ := hc.waitnmi
  rcases h.pc with hpc | ⟨hpc, -⟩
  · exact ⟨_, hpc ▸ hcmp, by simp, by simp⟩
  · have hat : w + 4 = w + BitVec.ofNat 16 2 + BitVec.ofNat 16 2 := by rw [BitVec.add_assoc]; rfl
    exact ⟨_, hpc.trans hat ▸ hbeq, by simp, by simp⟩

theorem Untouched.outside {a : Uint16} (h : Untouched a) (b : Uint8) : a ≠ stackAddr b := by
  rintro rfl
  have hb := b.isLt
  have ha := stackAddr_toNat b
  rcases h.1 with hlt | ⟨hge, -⟩ <;> omega

theorem Untouched.not_mem {a : Uint16} (h : Untouched a) :
    a ∉ [nmiFlag, 0x2003, 0x4014, 0x2005, 0x2005] := by
  have hlt : a.toNat < 0x800 := by rcases h.1 with hlt | ⟨-, hlt⟩ <;> omega
  intro hmem
  rcases List.mem_cons.mp hmem with rfl | hmem
  · exact h.2 rfl
  · have hhigh : ∀ b ∈ ([0x2003, 0x4014, 0x2005, 0x2005] : List Uint16), 0x800 ≤ b.toNat := by simp
    have hge := hhigh a hmem
    omega

/-- The return address of the wait is not where the handler pushes. -/
theorem stackAddr_ne_of_below {b : Uint8} {i j : ℕ} (hi : i < 2) (hj : j < 6) :
    stackAddr (b - BitVec.ofNat 8 i) ≠ stackAddr (b - 2 - BitVec.ofNat 8 j) := by
  intro h
  have hsp := stackAddr_injective h
  bv_omega

theorem stackAddr_not_mem (b : Uint8) :
    stackAddr b ∉ [nmiFlag, 0x2003, 0x4014, 0x2005, 0x2005] := by
  intro hmem
  have ha := stackAddr_toNat b
  have hb := b.isLt
  have hcells : ∀ a ∈ [nmiFlag, 0x2003, 0x4014, 0x2005, 0x2005],
      a.toNat < 0x100 ∨ 0x200 ≤ a.toNat := by simp [nmiFlag]
  rcases hcells _ hmem with h | h <;> omega

/-- The wait is interrupted: the handler runs and comes back to it, with one more in the flag. -/
theorem Waiting.interrupted (hc : MainCode rom m w joypad gamecode)
    (h : Waiting rom mem m w base v v s) :
    ∃ t, Code 22 (s.call .fireNmi) t ∧ Waiting rom mem m w base v (v + 1) t := by
  obtain ⟨l, hl, hbrk, hrti⟩ := h.line hc
  obtain ⟨hprivate, hw⟩ := h.step hc
  have hfired := step_fired h.runs hl hprivate hbrk hrti
  set u : State := { s.step with sig := { s.sig with nmipending := true, execnmi := true } } with hu
  have hsig : AtNmi u.sig :=
    ⟨rfl, rfl, h.reset, h.runs.quiet.execirq, h.runs.quiet.irqpending⟩
  have hcode := nmi_transparent hsig hw.runs.rom hc.nmi
  have hret {i : ℕ} (hi : i < 2) : (nmiDone u).mem (stackAddr (base - BitVec.ofNat 8 i)) =
      s.step.mem (stackAddr (base - BitVec.ofNat 8 i)) := by
    refine nmiDone_mem (fun j hj => ?_) (stackAddr_not_mem _)
    rw [show u.sp = base - 2 from hw.sp]
    exact stackAddr_ne_of_below hi hj
  have hhigh := hret (i := 0) (by decide)
  rw [show base - BitVec.ofNat 8 0 = base from BitVec.sub_zero base] at hhigh
  refine ⟨nmiDone u, Goes.head hfired hcode, ?_⟩
  exact {
    runs := runs_nmiDone hsig hw.runs.rom
    reset := h.reset
    pc := hw.pc
    acc := hw.acc
    flag := nmiDone_flag.trans (congrArg (· + 1) hw.flag)
    sp := hw.sp
    low := (hret (i := 1) (by decide)).trans hw.low
    high := hhigh.trans hw.high
    kept := fun a ha => (nmiDone_mem (fun j _ => ha.outside _) ha.not_mem).trans (hw.kept a ha) }

/-- A subroutine that returns at once. -/
theorem code_return {p : Uint16} (hs : Runs rom s)
    (hjsr : Line.In ⟨.impld .jsr, .abs, p⟩ rom s.pc)
    (hrts : Line.In ⟨.impld .rts, .impld, 0⟩ rom p) :
    Code 2 s { s with pc := s.pc + 3, mem := (called p s).mem } :=
  code_call hs hjsr (Goes.refl _) hrts rfl fun _ _ => rfl

theorem called_mem (p : Uint16) (s : State) {a : Uint16}
    (ha : a.toNat < 0x100 ∨ 0x200 ≤ a.toNat) : (called p s).mem a = s.mem a := by
  have hmem : (called p s).mem =
      stored s.mem (pushed s.sp [Reg16.high (s.pc + 2), Reg16.low (s.pc + 2)]) := rfl
  rw [hmem, stored_pushed_outside ha]

theorem nmiFlag_outside : nmiFlag.toNat < 0x100 ∨ 0x200 ≤ nmiFlag.toNat := .inl (by decide)

theorem Untouched.outside' {a : Uint16} (h : Untouched a) : a.toNat < 0x100 ∨ 0x200 ≤ a.toNat :=
  h.1.imp_right And.left

/-- The rest of the main loop, once the wait is over. -/
theorem code_rest (hc : MainCode rom m w joypad gamecode) (hs : Runs rom s)
    (hreset : s.sig.resetpending = false) (hpc : s.pc = m + 3) (hflag : s.mem nmiFlag = v)
    (hsp : s.sp = base) (hkept : ∀ a, Untouched a → s.mem a = mem a) :
    ∃ t, Code 5 s t ∧ AtMain rom mem m base v t := by
  obtain ⟨-, hj, hg, hjmp, -⟩ := hc.mainloop
  have hcode₁ := code_return hs (hpc ▸ hj) hc.joypad
  have hs₁ := hs.code hcode₁
  have hcode₂ := code_return hs₁ (show Line.In _ rom (s.pc + 3) by rw [hpc]; exact hg) hc.gamecode
  have hs₂ := hs₁.code hcode₂
  have hline := line_jmp hs₂ (show Line.In _ rom (s.pc + 3 + 3) by rw [hpc]; exact hjmp)
  have hs₃ := hs₂.next hline
  refine ⟨_, hcode₁.trans (hcode₂.trans (Goes.one hline)), hs₃, hreset, rfl, ?_, hsp, ?_⟩
  · have h := called_mem gamecode { s with pc := s.pc + 3, mem := (called joypad s).mem }
      nmiFlag_outside
    exact h.trans ((called_mem joypad s nmiFlag_outside).trans hflag)
  · intro a ha
    have h := called_mem gamecode { s with pc := s.pc + 3, mem := (called joypad s).mem }
      ha.outside'
    exact h.trans ((called_mem joypad s ha.outside').trans (hkept a ha))

/-- The wait ends at the comparison when the flag has changed. -/
theorem Waiting.leaves (hc : MainCode rom m w joypad gamecode)
    (h : Waiting rom mem m w base v (v + 1) s) (hpc : s.pc = w + 2) :
    ∃ t, Code 8 s t ∧ AtMain rom mem m base (v + 1) t := by
  obtain ⟨-, hcmp, hbeq, hrts, -⟩ := hc.waitnmi
  have hat : s.pc + 2 = w + BitVec.ofNat 16 2 + BitVec.ofNat 16 2 := congrArg (· + 2) hpc
  have hne : decide (s.acc = s.mem nmiFlag) = false := by
    rw [h.acc, h.flag]
    refine decide_eq_false fun heq => ?_
    exact absurd (BitVec.self_eq_add_right.mp heq) (by decide)
  have hline₁ := line_cmp h.runs (hpc ▸ hcmp)
  have hs₁ := h.runs.next hline₁
  have hline₂ := line_branch hs₁ (show Line.In _ rom (s.pc + 2) by rw [hat]; exact hbeq)
  have hs₂ := hs₁.next hline₂
  have hpc₂ : (if decide (s.acc = s.mem nmiFlag) = true then
      s.pc + 2 + 2 + (Reg16.low 0xFC).signExtend 16 else s.pc + 2 + 2) =
      w + BitVec.ofNat 16 2 + BitVec.ofNat 16 2 + BitVec.ofNat 16 2 := by
    rw [hne, if_neg Bool.false_ne_true, hat]
    rfl
  have hline₃ := line_rts hs₂ (by
    show Line.In _ rom (if decide (s.acc = s.mem nmiFlag) = true then _ else _)
    rw [hpc₂]
    exact hrts)
  have hs₃ := hs₂.next hline₃
  have hsp : s.sp + 2 = base := by rw [h.sp, BitVec.sub_add_cancel]
  have hret : Reg16.ofBytes (s.stack 1) (s.stack 2) + 1 = m + 3 := by
    have hone : s.sp + 1 = base - 1 := by rw [h.sp]; bv_omega
    rw [State.stack, State.stack, hone, hsp, h.low, h.high, Reg16.ofBytes_low_high,
      BitVec.add_assoc]
    rfl
  obtain ⟨t, hcode, ht⟩ := code_rest hc hs₃ h.reset hret h.flag hsp h.kept
  exact ⟨t, Goes.head hline₁ (Goes.head hline₂ (Goes.head hline₃ hcode)), ht⟩

/-- The wait ends when the flag has changed. -/
theorem Waiting.ends (hc : MainCode rom m w joypad gamecode)
    (h : Waiting rom mem m w base v (v + 1) s) :
    ∃ n ≤ 9, ∃ t, Code n s t ∧ AtMain rom mem m base (v + 1) t := by
  rcases h.pc with hpc | ⟨hpc, hz⟩
  · obtain ⟨t, hcode, ht⟩ := h.leaves hc hpc
    exact ⟨8, by decide, t, hcode, ht⟩
  · have hline := line_beq hc h.runs hpc hz
    have hruns := h.runs.next hline
    have hw : Waiting rom mem m w base v (v + 1) { s with pc := w + 2 } :=
      ⟨hruns, h.reset, .inl rfl, h.acc, h.flag, h.sp, h.low, h.high, h.kept⟩
    obtain ⟨t, hcode, ht⟩ := hw.leaves hc rfl
    exact ⟨9, Nat.le_refl 9, t, Goes.head hline hcode, ht⟩

/-- The main loop begins to wait. -/
theorem AtMain.waits (hc : MainCode rom m w joypad gamecode) (h : AtMain rom mem m base v s) :
    ∃ t, Code 2 s t ∧ Waiting rom mem m w base v v t := by
  obtain ⟨hjsr, -⟩ := hc.mainloop
  obtain ⟨hlda, -⟩ := hc.waitnmi
  have hcall := line_jsr h.runs (h.pc ▸ hjsr)
  have hs₁ : Runs rom (called w s) := h.runs.next hcall
  have hline := line_read hs₁ (show State.Direct .zero from trivial) hlda (readable_nmiFlag _)
  have hs₂ := hs₁.next hline
  have hflag : (called w s).mem nmiFlag = v := (called_mem _ _ nmiFlag_outside).trans h.flag
  have hret {i : ℕ} (hi : i < 2) : (called w s).mem (stackAddr (base - BitVec.ofNat 8 i)) =
      [Reg16.high (m + 2), Reg16.low (m + 2)][i] := by
    have hmem : (called w s).mem =
        stored s.mem (pushed s.sp [Reg16.high (m + 2), Reg16.low (m + 2)]) := by rw [← h.pc]; rfl
    rw [hmem, ← h.sp]
    exact stored_pushed (by exact hi) (Nat.le_of_ble_eq_true rfl) s.mem
  have hhigh := hret (i := 0) (by decide)
  rw [show base - BitVec.ofNat 8 0 = base from BitVec.sub_zero base] at hhigh
  have hsp : s.sp - 1 - 1 = base - 2 := by rw [h.sp, BitVec.sub_sub]; rfl
  refine ⟨_, Goes.head hcall (Goes.one hline), ?_⟩
  exact {
    runs := hs₂
    reset := h.reset
    pc := .inl rfl
    acc := hflag
    flag := hflag
    sp := hsp
    low := hret (i := 1) (by decide)
    high := hhigh
    kept := fun a ha => (called_mem w s ha.outside').trans (h.kept a ha) }

end Wait

end Yanesemu.Isa

namespace Yanesemu.Emulator

open Isa (State Code MainCode AtMain Waiting Untouched)

section Frames

variable {rom mem : Mem} {m w joypad gamecode : Uint16} {base v : Uint8} {n : ℕ} {e : Emulator}
  {s : State}

/-- **The wait** goes on until a vertical blank begins. -/
theorem wait_ends (hc : MainCode rom m w joypad gamecode) (h : Sync n e s)
    (hw : Waiting rom mem m w base v v s) :
    ∃ k ≤ left n / 3 + 1, ∃ n' s', Sync n' (run^[k] e) (s'.call .fireNmi) ∧
      Waiting rom mem m w base v v s' ∧ (run^[k] e).vblanks = e.vblanks + 1 ∧
      89300 ≤ left n' := by
  -- each round uses up three dots at least of those that are left
  induction hd : left n using Nat.strongRecOn generalizing n e s with
  | ind d ih =>
    subst hd
    obtain ⟨hprivate, hw'⟩ := hw.step hc
    obtain ⟨k, hround⟩ := h.round hprivate
    have hk := hround.atLeast
    by_cases hle : k ≤ left n
    · obtain ⟨hsync, hv⟩ := hround.quiet hle
      have hleft := left_add hle
      obtain ⟨j, hj, n', s', hsync', hw'', hv', hlong⟩ :=
        ih (left (n + k)) (by omega) hsync hw' rfl
      refine ⟨j + 1, by omega, n', s', ?_, hw'', ?_, hlong⟩
      · rw [Function.iterate_succ_apply]; exact hsync'
      · rw [Function.iterate_succ_apply, hv', hv]
    · have hlt := Nat.lt_of_not_le hle
      obtain ⟨hsync, hv⟩ := hround.vblank hlt
      exact ⟨1, by omega, n + k, s.step, hsync, hw', hv, le_left_add hlt hround.atMost⟩

/-- **A frame** of the main loop. -/
theorem mainloop_frame (hc : MainCode rom m w joypad gamecode) (h : Sync n e s)
    (hm : AtMain rom mem m base v s) (hn : 42 ≤ left n) :
    ∃ k ≤ 29815, ∃ n' s', Sync n' (run^[k] e) s' ∧ AtMain rom mem m base (v + 1) s' ∧
      (run^[k] e).vblanks = e.vblanks + 1 ∧ 42 ≤ left n' := by
  obtain ⟨s₁, hcode₁, hw₁⟩ := hm.waits hc
  obtain ⟨k₁, hk₁, hsync₁, hv₁⟩ := h.code hcode₁ hn
  obtain ⟨j, hj, n₂, s₂, hsync₂, hw₂, hv₂, hn₂⟩ := wait_ends hc hsync₁ hw₁
  obtain ⟨s₃, hcode₃, hw₃⟩ := hw₂.interrupted hc
  obtain ⟨k₃, hk₃, hsync₃, hv₃⟩ := hsync₂.code hcode₃ (by omega)
  obtain ⟨i, hi, s₄, hcode₄, hm₄⟩ := hw₃.ends hc
  have hn₃ := left_add (n := n₂) (k := k₃) (by omega)
  obtain ⟨k₄, hk₄, hsync₄, hv₄⟩ := hsync₃.code hcode₄ (by omega)
  have hn₄ := left_add (n := n₂ + k₃) (k := k₄) (by omega)
  have hle := left_le (n + k₁)
  refine ⟨i + (22 + (j + 2)), by omega, n₂ + k₃ + k₄, s₄, ?_, hm₄, ?_, by omega⟩
  · rw [Function.iterate_add_apply, Function.iterate_add_apply, Function.iterate_add_apply]
    exact hsync₄
  · rw [Function.iterate_add_apply, Function.iterate_add_apply, Function.iterate_add_apply, hv₄,
      hv₃, hv₂, hv₁]

end Frames

end Yanesemu.Emulator
