import Yanesemu.CpuFlow

/-!
# The debugger's prediction of the program counter

`CPU::nextaddr` is a second implementation of control flow. It is compared here with what `run`
does, on a bus whose reads have no side effect and with no interrupt to execute. The two agree
on every instruction except BRK, RTS and RTI, and on these exactly if memory happens to make the
different addresses they use give the same word.
-/

namespace Yanesemu.Cpu

open Interaction

variable {σ : Type} {H : Handler cpuSig σ}

/-! ### What `nextaddr` computes -/

/-- The address of the vector as `nextaddr` has it. -/
def vecAddr (i : Signals) : Uint16 :=
  if i.resetpending then resetVec else if i.nmipending then nmiVec else irqBrkVec

theorem entry_vec (i : Signals) : i.entry.vec = vecAddr i := by
  rcases i with ⟨n, q, r, en, eq, l⟩
  cases n <;> cases q <;> cases r <;> rfl

theorem val_busReadWord (hp : PureReads H) (s : Sys Cpu σ) (lo hi : Uint16) :
    val H (busReadWord lo hi) s = busWord H s.env lo hi := by
  simp [busReadWord, busWord, hp.readEnv_eq]

theorem val_nextaddr (hp : PureReads H) (s : Sys Cpu σ) :
    val H nextaddr s = val H (nextaddrOf s.chip (readVal H s.chip.r.pc s.env)
      (readVal H (s.chip.r.pc + 1) s.env) (readVal H (s.chip.r.pc + 2) s.env)) s := by
  simp [nextaddr, hp.readEnv_eq]

/-! ### The tables agree -/

/-- The flag and value a branch opcode tests in `took_branch`. -/
def branchOf (id : Uint8) : Option (Flag × Bool) :=
  match id.toNat with
  | 0x10 => some (.neg, false)
  | 0x30 => some (.neg, true)
  | 0x50 => some (.ov, false)
  | 0x70 => some (.ov, true)
  | 0x90 => some (.carry, false)
  | 0xB0 => some (.carry, true)
  | 0xD0 => some (.zero, false)
  | 0xF0 => some (.zero, true)
  | _ => none

theorem tookBranch_eq (id : Uint8) (ps : ProcStatus) :
    tookBranch id ps = match branchOf id with
      | some (f, v) => f.get ps == v
      | none => false := by
  unfold tookBranch branchOf
  generalize id.toNat = k
  split <;> simp_all [Flag.get]

/-- The opcodes `nextaddr` treats by the table of lengths. -/
def Ordinary (id : Uint8) : Prop :=
  id ≠ 0x00 ∧ id ≠ 0x20 ∧ id ≠ 0x4C ∧ id ≠ 0x6C ∧ id ≠ 0x60 ∧ id ≠ 0x40

instance : DecidablePred Ordinary := fun _ => inferInstanceAs (Decidable (_ ∧ _))

/-- What each case of `execute` says about its opcode. -/
def Case.Describes (id : Uint8) : Case → Prop
  | .impld .brk => id = 0x00
  | .impld .jsr => id = 0x20
  | .impld .jmp => id = 0x4C
  | .impld .jmpInd => id = 0x6C
  | .impld .rts => id = 0x60
  | .impld .rti => id = 0x40
  | .branch f v => Ordinary id ∧ branchOf id = some (f, v) ∧ numBytes id = 2
  | c => Ordinary id ∧ branchOf id = none ∧ c.operands = some (BitVec.ofNat 16 (numBytes id) - 1)

instance (id : Uint8) (c : Case) : Decidable (c.Describes id) := by
  unfold Case.Describes
  split <;> infer_instance

theorem executeTab_describes : ∀ id : Uint8, (executeTab id).Describes id := by
  decide +kernel

/-- Off the special opcodes `nextaddr` goes by branches and lengths. -/
theorem nextaddrOf_ordinary {id : Uint8} (h : Ordinary id) (c : Cpu) (low high : Uint8) :
    nextaddrOf c id low high = pure (if tookBranch id c.r.flags then branchPointer low c.r.pc
      else c.r.pc + BitVec.ofNat 16 (numBytes id)) := by
  obtain ⟨h00, h20, h4C, h6C, h60, h40⟩ := h
  unfold nextaddrOf
  split
  · exact absurd (BitVec.eq_of_toNat_eq ‹_›) h00
  · exact absurd (BitVec.eq_of_toNat_eq ‹_›) h20
  · exact absurd (BitVec.eq_of_toNat_eq ‹_›) h4C
  · exact absurd (BitVec.eq_of_toNat_eq ‹_›) h6C
  · exact absurd (BitVec.eq_of_toNat_eq ‹_›) h60
  · exact absurd (BitVec.eq_of_toNat_eq ‹_›) h40
  · rfl

/-! ### Prediction and execution -/

/-- The CPU after the fetch of its opcode. -/
def pastOpcode (c : Cpu) : Cpu := { c with r.pc := c.r.pc + 1, r.cycles := c.r.cycles + 1 }

/-- The CPU as BRK hands it to the interrupt sequence. -/
def atBrk (c : Cpu) : Cpu := { pastOpcode c with r.flags.breakf := true }

theorem fetched_eq (hp : PureReads H) (s : Sys Cpu σ) :
    fetched H s = ⟨pastOpcode s.chip, s.env⟩ := by
  unfold fetched pastOpcode
  rw [hp.called_eq, hp.readEnv_eq]

/-- When prediction and execution agree: always but for BRK, whose vector has to hold its own
address, and RTS and RTI, which have to find the same word at the addresses `nextaddr` uses. -/
def NextaddrAgrees (H : Handler cpuSig σ) (s : Sys Cpu σ) : Prop :=
  let sp := s.chip.r.sp
  let vec := vecAddr s.chip.sig
  match executeTab (readVal H s.chip.r.pc s.env) with
  | .impld .brk => busWord H (stacked H (atBrk s.chip) s.env) vec (vec + 1) = vec
  | .impld .rts => busWord H s.env (stackAddr (sp + 1)) (stackAddr (sp + 1 + 1)) =
      busWord H s.env (stackAddr sp + 1) (stackAddr sp + 2)
  | .impld .rti => busWord H s.env (stackAddr (sp + 1 + 1)) (stackAddr (sp + 1 + 1 + 1)) =
      busWord H s.env (stackAddr sp + 1) (stackAddr sp + 2)
  | _ => True

section Cases

variable (s : Sys Cpu σ) (low high : Uint8)

/-- An instruction that runs straight on. -/
theorem straight_agrees {id : Uint8} {c : Case} (ho : Ordinary id) (hb : branchOf id = none)
    (hn : c.operands = some (BitVec.ofNat 16 (numBytes id) - 1)) :
    val H (nextaddrOf s.chip id low high) s =
      (post H c.exec ⟨pastOpcode s.chip, s.env⟩).chip.r.pc := by
  have htook : tookBranch id s.chip.r.flags = false := by rw [tookBranch_eq, hb]
  rw [nextaddrOf_ordinary ho, val_pure, htook, exec_pc H _ hn]
  show s.chip.r.pc + _ = s.chip.r.pc + 1 + _
  generalize BitVec.ofNat 16 (numBytes id) = n
  bv_omega

/-- A branch, taken or not. -/
theorem branch_agrees {id : Uint8} {f : Flag} {v : Bool} (ho : Ordinary id)
    (hb : branchOf id = some (f, v)) (hn : numBytes id = 2)
    (hlow : low = readVal H (s.chip.r.pc + 1) s.env) :
    val H (nextaddrOf s.chip id low high) s =
      (post H (Case.branch f v).exec ⟨pastOpcode s.chip, s.env⟩).chip.r.pc := by
  have htook : tookBranch id s.chip.r.flags = (f.get s.chip.r.flags == v) := by
    rw [tookBranch_eq, hb]
  rw [nextaddrOf_ordinary ho, val_pure, htook, hn]
  show _ = (post H (instrBranch (f.get s.chip.r.flags == v)) ⟨pastOpcode s.chip, s.env⟩).chip.r.pc
  rw [branch_pc]
  show (if (f.get s.chip.r.flags == v) = true then branchPointer low s.chip.r.pc
    else s.chip.r.pc + 2#16) = _
  split
  · unfold branchPointer
    rw [hlow, show s.chip.r.pc + 2 = s.chip.r.pc + 1 + 1 from (add_one_add_one _).symm]
    rfl
  · exact (add_one_add_one _).symm

end Cases

theorem brk_pc (hp : PureReads H) (c : Cpu) (e : σ) :
    (post H instrBrk ⟨pastOpcode c, e⟩).chip.r.pc =
      busWord H (stacked H (atBrk c) e) (vecAddr c.sig) (vecAddr c.sig + 1) := by
  unfold instrBrk
  rw [post_bind, post_modify, interrupt_pc _ hp, ← entry_vec]
  rfl

theorem one_add_eq_iff (a b : Uint16) : 1 + a = b + 1 ↔ b = a := by
  constructor
  · intro h; bv_omega
  · rintro rfl; exact BitVec.add_comm 1 b

/-- **Prediction.** On a bus whose reads have no side effect and with no interrupt to execute,
`nextaddr` before `run` is the program counter after it exactly in the states that agree. -/
theorem nextaddr_eq_pc_iff (hp : PureReads H) (s : Sys Cpu σ)
    (hn : s.chip.sig.execnmi = false) (hi : s.chip.sig.execirq = false) :
    val H nextaddr s = (post H run s).chip.r.pc ↔ NextaddrAgrees H s := by
  have hop : opcode H s = readVal H s.chip.r.pc s.env := by
    unfold opcode; rw [hp.called_eq]
  rw [val_nextaddr hp, post_run_instr H s hn hi, hop, fetched_eq hp]
  unfold NextaddrAgrees
  have hd := executeTab_describes (readVal H s.chip.r.pc s.env)
  have hoperand : busWord H s.env (s.chip.r.pc + 1) (s.chip.r.pc + 2) =
      operand H (⟨pastOpcode s.chip, s.env⟩ : Sys Cpu σ) := by
    unfold operand
    rw [show s.chip.r.pc + 2 = s.chip.r.pc + 1 + 1 from (add_one_add_one _).symm]
    rfl
  generalize readVal H s.chip.r.pc s.env = id at *
  cases hc : executeTab id with
  | impld func =>
    rw [hc] at hd
    cases func with
    | brk =>
      obtain rfl : id = 0x00 := hd
      show vecAddr s.chip.sig = (post H instrBrk _).chip.r.pc ↔ _
      rw [brk_pc hp]
      exact eq_comm
    | jsr =>
      obtain rfl : id = 0x20 := hd
      exact iff_true_intro (hoperand.trans (jsr_pc _ hp).symm)
    | jmp =>
      obtain rfl : id = 0x4C := hd
      exact iff_true_intro (hoperand.trans (jmp_pc _ hp).symm)
    | jmpInd =>
      obtain rfl : id = 0x6C := hd
      refine iff_true_intro ?_
      show val H (busReadWord (busWord H s.env _ _) (indHigh (busWord H s.env _ _))) s =
        (post H instrJmpInd _).chip.r.pc
      rw [val_busReadWord hp, jmpInd_pc _ hp, hoperand]
    | rts =>
      obtain rfl : id = 0x60 := hd
      show val H (busReadWord _ _ >>= fun w => pure (1 + w)) s = (post H instrRts _).chip.r.pc ↔ _
      rw [val_bind, val_pure, val_busReadWord hp, rts_pc _ hp]
      exact one_add_eq_iff _ _
    | rti =>
      obtain rfl : id = 0x40 := hd
      show val H (busReadWord _ _) s = (post H instrRti _).chip.r.pc ↔ _
      rw [val_busReadWord hp, rti_pc _ hp]
      exact eq_comm
    | _ => exact iff_true_intro (straight_agrees s _ _ hd.1 hd.2.1 hd.2.2)
  | branch f v =>
    rw [hc] at hd
    exact iff_true_intro (branch_agrees s _ _ hd.1 hd.2.1 hd.2.2 rfl)
  | _ =>
    rw [hc] at hd
    exact iff_true_intro (straight_agrees s _ _ hd.1 hd.2.1 hd.2.2)

/-- A memory of NOPs. -/
def nops : Mem := fun _ => 0xEA

theorem nextaddr_eq_pc_nop :
    val flatMem nextaddr ⟨{}, nops⟩ = (post flatMem run ⟨{}, nops⟩).chip.r.pc :=
  (nextaddr_eq_pc_iff pureReads_flatMem ⟨{}, nops⟩ rfl rfl).mpr trivial

/-- In a memory of zeros the prediction for BRK is the vector's address, and BRK goes to 0. -/
theorem nextaddr_ne_pc_brk :
    val flatMem nextaddr ⟨{}, fun _ => 0⟩ = 0xFFFE ∧
      (post flatMem run ⟨{}, fun _ => 0⟩).chip.r.pc = 0 := by
  decide

end Yanesemu.Cpu
