import Yanesemu.CpuFlow
import Yanesemu.CpuStores
import Yanesemu.IrqMask
import Yanesemu.Stack

/-!
# The status byte on the stack

PHP, BRK and the interrupt sequence push the flags as a byte; PLP and RTI take them from a byte.
Bit 4 of a pushed byte tells a handler who pushed it: B is set before the pushes of PHP and BRK
and clear at every other time, whatever byte a program has pulled (`breakf_after`).

Bit 5 has no flag behind it on the 6502. Here it is the member `unused`, which PLP and RTI load
with what they pull and only `power` sets again.
-/

namespace Yanesemu

namespace Cpu

open Interaction EventRun

variable {σ : Type} (H : Handler cpuSig σ)

/-! ### Who pushes what -/

/-- What pushes a status byte. -/
inductive Pusher
  | php | brk | interrupt
  deriving DecidableEq, Repr

/-- The pushers of a program, as opposed to the hardware's. -/
def Pusher.isSoftware : Pusher → Bool
  | php | brk => true
  | interrupt => false

/-- What pushes a status byte in an instruction. -/
def Case.pusher : Case → Option Pusher
  | .impld .php => some .php
  | .impld .brk => some .brk
  | _ => none

/-- What pushes a status byte in a call. A raised exec flag makes `run` enter an interrupt. -/
def pusher (s : Sys Cpu σ) : Call → Option Pusher
  | .run => if s.chip.sig.execnmi ∨ s.chip.sig.execirq then some .interrupt
    else (executeTab (opcode H s)).pusher
  | .reset | .power => some .interrupt
  | .fireNmi | .fireIrq => none

/-- The last byte a program writes. PHP writes one byte, and BRK and the interrupt sequence end
with the status behind the two bytes of the program counter. -/
def lastByte {α : Type} (m : CpuM α) (s : Sys Cpu σ) : Option Uint8 :=
  (writes H m s).getLast?.map Prod.snd

/-- The byte an instruction loads the flags with. -/
def Case.statusPulled (s : Sys Cpu σ) : Case → Option Uint8
  | .impld .plp => some (plpByte H s)
  | .impld .rti => some (plaByte H s)
  | _ => none

/-- The byte a call loads the flags with. -/
def statusPulled (s : Sys Cpu σ) : Call → Option Uint8
  | .run => if s.chip.sig.execnmi ∨ s.chip.sig.execirq then none
    else (executeTab (opcode H s)).statusPulled H (fetched H s)
  | _ => none

section Pushes

variable (s : Sys Cpu σ)

theorem lastByte_interrupt : lastByte H interrupt s = some s.chip.r.flags.toByte := by
  unfold lastByte
  rw [writes_interrupt]
  rfl

/-- Writes before the interrupt sequence do not count. -/
theorem lastByte_bind_interrupt {α : Type} (m : CpuM α) :
    lastByte H (do let _ ← m; interrupt) s = lastByte H interrupt (post H m s) := by
  unfold lastByte writes
  rw [asked_bind, List.filterMap_append]
  have hne : (asked H interrupt (post H m s)).filterMap store ≠ [] := by
    have hw := writes_interrupt H (post H m s)
    unfold writes at hw
    rw [hw]
    exact List.cons_ne_nil _ _
  rw [List.getLast?_append_of_ne_nil _ hne]

theorem lastByte_php : lastByte H instrPhp s =
    some { s.chip.r.flags with breakf := true }.toByte := by
  simp [lastByte, writes, store, List.filterMap_cons]

theorem lastByte_brk : lastByte H instrBrk s =
    some { s.chip.r.flags with breakf := true }.toByte := by
  have h := lastByte_bind_interrupt H s
    (modify fun c => { c with r.flags.breakf := true } : CpuM PUnit)
  rw [lastByte_interrupt] at h
  exact h

/-- `power` up to the interrupt of start-up. -/
def powerPrefix : CpuM Unit := do
  modify fun c => { c with r.acc := 0, r.x := 0, r.y := 0 }
  clearBus 0 0x800
  modify fun c => { c with r.flags := ProcStatus.reset }
  busWrite 0x4017 0
  busWrite 0x4015 0
  clearBus 0x4000 0x13
  modify fun c => { c with r.sp := 0, sig.resetpending := true }

theorem power_eq : post H power s = post H interrupt (post H powerPrefix s) := by
  simp only [power, powerPrefix, post_bind]

theorem powerPrefix_chip : (post H powerPrefix s).chip =
    { s.chip with
      r := { s.chip.r with acc := 0, x := 0, y := 0, flags := ProcStatus.reset, sp := 0 }
      sig.resetpending := true } := by
  rw [powerPrefix]
  simp only [post_bind]
  rw [post_modify, post_clearBus_chip, post_busWrite, post_busWrite, post_modify,
    post_clearBus_chip, post_modify]

theorem lastByte_power : lastByte H power s = some ProcStatus.reset.toByte := by
  have hpower : asked H power s = asked H (do powerPrefix; interrupt) s := by
    simp only [power, powerPrefix, asked_bind, post_bind, List.append_assoc]
  have h : lastByte H power s = lastByte H (do powerPrefix; interrupt) s := by
    unfold lastByte writes
    rw [hpower]
  rw [h, lastByte_bind_interrupt, lastByte_interrupt, powerPrefix_chip]

theorem lastByte_reset : lastByte H reset s = some s.chip.r.flags.toByte := by
  have h := lastByte_bind_interrupt H s (do
    busWrite 0x4015 0
    modify fun c => { c with sig.resetpending := true })
  rw [lastByte_interrupt] at h
  exact h

end Pushes

/-- The status byte a `run` pushes. -/
theorem lastByte_run (s : Sys Cpu σ) {who : Pusher} (hwho : pusher H s .run = some who) :
    lastByte H run s = some
      (if who.isSoftware then { s.chip.r.flags with breakf := true }
        else s.chip.r.flags).toByte := by
  unfold pusher at hwho
  dsimp only at hwho
  split at hwho
  · next hexec =>
    obtain rfl := Option.some.inj hwho
    have hlast : lastByte H run s = lastByte H interrupt (ticked s) := by
      unfold lastByte writes
      rw [asked_run_interrupt H s hexec]
    rw [hlast, lastByte_interrupt]
    rfl
  · next hexec =>
    simp only [not_or, Bool.not_eq_true] at hexec
    have hrun : lastByte H run s = lastByte H (executeTab (opcode H s)).exec (fetched H s) := by
      unfold lastByte writes
      rw [asked_run_instr H s hexec.1 hexec.2]
      rfl
    rw [hrun]
    cases hc : executeTab (opcode H s) with
    | impld func =>
      rw [hc] at hwho
      cases func <;> cases hwho
      · exact lastByte_php H (fetched H s)
      · exact lastByte_brk H (fetched H s)
    | _ =>
      rw [hc] at hwho
      cases hwho

/-! ### The flags at instruction boundaries -/

section Boundaries

variable (s : Sys Cpu σ)

/-- The unused flag after a case of the switch. -/
theorem regs_unused (c : Case) :
    (c.regs H s).flags.unused =
      ((c.statusPulled H s).map (·.getLsbD 5)).getD s.chip.r.flags.unused := by
  have hrestored (v : Uint8) : (restored v).unused = v.getLsbD 5 :=
    truthy_and_twoPow v (by decide : 5 < 8)
  cases c with
  | impld func =>
    cases func
    case plp => exact hrestored _
    case rti => exact hrestored _
    all_goals rfl
  | read name mode => cases name <;> rfl
  | modify name mode => cases mode <;> cases name <;> rfl
  | flag f v => cases f <;> rfl
  | transfer src dst => rfl
  | write mode val => rfl
  | branch f v => rfl
  | unknown => rfl

theorem power_flags : (post H power s).chip.r.flags =
    { ProcStatus.reset with breakf := false, intdis := true } := by
  rw [power_eq, interrupt_flags, powerPrefix_chip]

/-- The unused flag after a `run`. -/
theorem run_unused :
    (post H run s).chip.r.flags.unused =
      ((statusPulled H s .run).map (·.getLsbD 5)).getD s.chip.r.flags.unused := by
  unfold statusPulled
  obtain ⟨hn, hrun⟩ | ⟨hn, hi, hrun⟩ | ⟨hn, hi, hrun⟩ := run_cases H s
  · have hflags : (post H run s).chip.r.flags = _ :=
      (congrArg (·.chip.r.flags) hrun).trans (interrupt_flags H (ticked s))
    rw [hflags]
    simp [hn, ticked]
  · have hflags : (post H run s).chip.r.flags = _ :=
      (congrArg (·.chip.r.flags) hrun).trans (interrupt_flags H (ticked s))
    rw [hflags]
    simp [hi, ticked]
  · have hflags := (exec_data H (fetched H s) (executeTab (opcode H s))).flags
    rw [hrun, hflags]
    rw [if_neg (by simp [hn, hi])]
    exact regs_unused H (fetched H s) (executeTab (opcode H s))

theorem call_unused (c : Call) :
    (call H s c).chip.r.flags.unused = (c == .power ||
      ((statusPulled H s c).map (·.getLsbD 5)).getD s.chip.r.flags.unused) := by
  unfold call
  cases c with
  | run => exact run_unused H s
  | fireNmi => rfl
  | fireIrq => rfl
  | reset =>
    rw [Call.prog, reset, post_bind, post_bind, interrupt_flags]
    rfl
  | power =>
    rw [Call.prog, power_flags]
    rfl

end Boundaries

/-- The flags a call pushes: `power` has reset them, and PHP and BRK set B. -/
def pushedFlags (s : Sys Cpu σ) (c : Call) (who : Pusher) : ProcStatus :=
  if c = .power then ProcStatus.reset
  else if who.isSoftware then { s.chip.r.flags with breakf := true }
  else s.chip.r.flags

/-- The status byte of a call. -/
theorem lastByte_call (s : Sys Cpu σ) {c : Call} {who : Pusher} (hwho : pusher H s c = some who) :
    lastByte H c.prog s = some (pushedFlags s c who).toByte := by
  cases c with
  | run => exact lastByte_run H s hwho
  | fireNmi => cases hwho
  | fireIrq => cases hwho
  | reset =>
    cases hwho
    exact lastByte_reset H s
  | power => exact lastByte_power H s

/-! ### Runs from power -/

/-- B is clear at the boundaries of every run from power. -/
theorem breakf_after (s : Sys Cpu σ) (calls : List Call) :
    (after (call H) (call H s .power) calls).chip.r.flags.breakf = false :=
  after_inv (I := fun t : Sys Cpu σ => t.chip.r.flags.breakf = false)
    (fun _ c h => call_breakf c h) (congrArg ProcStatus.breakf (power_flags H s)) calls

/-- **The B flag.** In every run from power, on any bus and in any order of calls, B is clear at
every instruction boundary, and a pushed status byte has bit 4 set exactly if PHP or BRK pushes
it. -/
theorem break_flag (s : Sys Cpu σ) (calls : List Call) :
    (after (call H) (call H s .power) calls).chip.r.flags.breakf = false ∧
    ∀ m ∈ moments (call H) s (.power :: calls), ∀ who, pusher H m.1 m.2 = some who →
      ∃ v, lastByte H m.2.prog m.1 = some v ∧ v.getLsbD 4 = who.isSoftware := by
  refine ⟨breakf_after H s calls, ?_⟩
  intro m hm who hwho
  refine ⟨_, lastByte_call H m.1 hwho, ?_⟩
  rw [(ProcStatus.getLsbD_toByte _).1]
  unfold pushedFlags
  rcases List.mem_cons.mp hm with rfl | hm
  · cases hwho
    rfl
  · obtain ⟨pre, suf, -, hpre⟩ := mem_moments_iff.mp hm
    have hboundary : m.1.chip.r.flags.breakf = false := by
      rw [hpre]
      exact breakf_after H s pre
    split
    · next hpower =>
      rw [hpower] at hwho
      cases hwho
      rfl
    · split
      · next hsoft => exact hsoft.symm
      · next hsoft => rw [hboundary, Bool.not_eq_true] at *; exact hsoft.symm

/-- The unused flag is set at every boundary of a run from power, and in every byte it pushes. -/
structure KeepsUnused (s : Sys Cpu σ) (calls : List Call) : Prop where
  boundary : ∀ pre suf, calls = pre ++ suf →
    (after (call H) (call H s .power) pre).chip.r.flags.unused = true
  pushed : ∀ m ∈ moments (call H) s (.power :: calls), ∀ who, pusher H m.1 m.2 = some who →
    ∃ v, lastByte H m.2.prog m.1 = some v ∧ v.getLsbD 5 = true

/-- Every byte PLP and RTI pull in the run has bit 5 set. -/
def PullsUnused (s : Sys Cpu σ) (calls : List Call) : Prop :=
  ∀ m ∈ moments (call H) (call H s .power) calls, ∀ v, statusPulled H m.1 m.2 = some v →
    v.getLsbD 5 = true

theorem unused_after {s : Sys Cpu σ} {calls : List Call} (h : PullsUnused H s calls) :
    (after (call H) (call H s .power) calls).chip.r.flags.unused = true := by
  refine after_inv_of_guard (I := fun t : Sys Cpu σ => t.chip.r.flags.unused = true)
    (G := fun t c => ∀ v, statusPulled H t c = some v → v.getLsbD 5 = true) ?_ ?_ calls h
  · intro t c ht hpull
    rw [call_unused, ht]
    cases hv : statusPulled H t c with
    | none => simp
    | some v => simp [hpull v hv]
  · rw [call_unused]
    rfl

/-- **The unused flag.** It stays set over a run from power exactly if no PLP or RTI of the run
pulls a byte with bit 5 clear. -/
theorem keepsUnused_iff (s : Sys Cpu σ) (calls : List Call) :
    KeepsUnused H s calls ↔ PullsUnused H s calls := by
  constructor
  · intro h m hm v hv
    obtain ⟨pre, suf, hcalls, hpre⟩ := mem_moments_iff.mp hm
    have hnext := h.boundary (pre ++ [m.2]) suf (by rw [hcalls]; simp)
    rw [after_concat, ← hpre, call_unused, hv] at hnext
    have hne : m.2 ≠ .power := by
      intro hpower
      rw [hpower] at hv
      cases hv
    simpa [hne] using hnext
  · intro h
    have hbefore (pre suf : List Call) (hcalls : calls = pre ++ suf) :
        (after (call H) (call H s .power) pre).chip.r.flags.unused = true := by
      refine unused_after H fun m hm v hv => h m ?_ v hv
      obtain ⟨pre', suf', hcut, hm1⟩ := mem_moments_iff.mp hm
      exact mem_moments_iff.mpr ⟨pre', suf' ++ suf, by rw [hcalls, hcut]; simp, hm1⟩
    refine ⟨hbefore, ?_⟩
    intro m hm who hwho
    refine ⟨_, lastByte_call H m.1 hwho, ?_⟩
    rw [(ProcStatus.getLsbD_toByte _).2]
    unfold pushedFlags
    rcases List.mem_cons.mp hm with rfl | hm
    · rfl
    · obtain ⟨pre, suf, hcalls, hpre⟩ := mem_moments_iff.mp hm
      have hboundary : m.1.chip.r.flags.unused = true := by
        rw [hpre]
        exact hbefore pre _ hcalls
      split
      · rfl
      · split <;> exact hboundary

/-! ### A program behind the reset vector -/

section Flat

variable (s : Sys Cpu Mem)

theorem busWrite_env (a : Uint16) (d : Uint8) :
    (post flatMem (busWrite a d) s).env = Function.update s.env a d := rfl

theorem modify_env (f : Cpu → Cpu) :
    (post flatMem (modify f : CpuM PUnit) s).env = s.env := rfl

theorem clearBus_env {start a : Uint16} {n : ℕ} (h : start.toNat + n ≤ a.toNat) :
    (post flatMem (clearBus start n) s).env a = s.env a := by
  induction n with
  | zero => rfl
  | succ n ih =>
    have hlt := a.isLt
    have hne : a ≠ start + BitVec.ofNat 16 n := by
      intro ha
      have hnat := congrArg BitVec.toNat ha
      rw [BitVec.toNat_add, BitVec.toNat_ofNat] at hnat
      omega
    rw [clearBus, post_bind, busWrite_env, Function.update_of_ne hne, ih (by omega)]

/-- `power` up to the interrupt leaves the cartridge's half of the address space alone. -/
theorem powerPrefix_env {a : Uint16} (h : 0x8000 ≤ a.toNat) :
    (post flatMem powerPrefix s).env a = s.env a := by
  have hne {b : Uint16} (hb : b.toNat < 0x8000) : a ≠ b := by
    rintro rfl
    omega
  have hclear (start : Uint16) (n : ℕ) (hn : start.toNat + n ≤ 0x8000) :
      start.toNat + n ≤ a.toNat := hn.trans h
  rw [powerPrefix]
  simp only [post_bind]
  rw [modify_env, clearBus_env _ (hclear _ _ (by decide)), busWrite_env,
    Function.update_of_ne (hne (by decide)), busWrite_env, Function.update_of_ne (hne (by decide)),
    modify_env, clearBus_env _ (hclear _ _ (by decide)), modify_env]

theorem ne_stackAddr {a : Uint16} (h : 0x8000 ≤ a.toNat) (sp : Uint8) : a ≠ stackAddr sp := by
  intro ha
  have hnat := congrArg BitVec.toNat ha
  have hsp := sp.isLt
  rw [toNat_stackAddr] at hnat
  omega

/-- So do the pushes of the interrupt. -/
theorem stacked_env {a : Uint16} (h : 0x8000 ≤ a.toNat) :
    stacked flatMem s.chip s.env a = s.env a := by
  unfold stacked
  simp only [writeEnv_flatMem]
  rw [Function.update_of_ne (ne_stackAddr h _), Function.update_of_ne (ne_stackAddr h _),
    Function.update_of_ne (ne_stackAddr h _)]

theorem interrupt_env : (post flatMem interrupt s).env = stacked flatMem s.chip s.env := by
  simp [interrupt, stacked]

/-- After `power` the program at the reset vector's target is about to be run. -/
theorem power_flat :
    (∀ a : Uint16, 0x8000 ≤ a.toNat → (post flatMem power s).env a = s.env a) ∧
      (post flatMem power s).chip.r.pc = busWord flatMem s.env resetVec (resetVec + 1) := by
  rw [power_eq]
  constructor
  · intro a ha
    rw [interrupt_env, stacked_env _ ha, powerPrefix_env _ ha]
  · have hword (m : Mem) (lo hi : Uint16) :
        busWord flatMem m lo hi = Reg16.ofBytes (m lo) (m hi) := rfl
    have hentry : (post flatMem powerPrefix s).chip.sig.entry = .reset := by
      rw [powerPrefix_chip]
      rfl
    have hvec : Entry.reset.vec = resetVec := rfl
    rw [interrupt_pc _ pureReads_flatMem, hentry, hvec, hword, hword,
      stacked_env _ (by decide), stacked_env _ (by decide), powerPrefix_env _ (by decide),
      powerPrefix_env _ (by decide)]

theorem power_acc : (post flatMem power s).chip.r.acc = 0 := by
  have hentered (r : Regs) : (entered r).acc = r.acc := rfl
  rw [power_eq, (interrupt_data flatMem _).acc, hentered, powerPrefix_chip]

theorem plpByte_flat : plpByte flatMem s = s.env (stackAddr (s.chip.r.sp + 1)) := by
  simp [plpByte]

/-- What PHA pushes, a PLP behind it loads. -/
theorem pha_plp_unused {t : Sys Cpu Mem} {es : List Entry} (hsig : t.chip.sig = { entries := es })
    (hpha : t.env t.chip.r.pc = 0x48) (hplp : t.env (t.chip.r.pc + 1) = 0x28)
    (hrom : 0x8000 ≤ (t.chip.r.pc + 1).toNat) :
    (after (call flatMem) t [.run, .run]).chip.r.flags.unused = t.chip.r.acc.getLsbD 5 := by
  have hrun : call flatMem t .run = post flatMem instrPha (fetched flatMem t) := by
    show post flatMem run t = _
    rw [post_run_flat t (by rw [hsig]) (by rw [hsig]), hpha]
    rfl
  show (call flatMem (call flatMem t .run) .run).chip.r.flags.unused = _
  rw [call_unused, hrun]
  have husig : (post flatMem instrPha (fetched flatMem t)).chip.sig = { entries := es } := by
    have hpolled (b : Bool) :
        ({ entries := es } : Signals).polled b = { entries := es } := by cases b <;> rfl
    simp [fetched, hsig, hpolled]
  have hupc : (post flatMem instrPha (fetched flatMem t)).chip.r.pc = t.chip.r.pc + 1 := by
    simp [fetched]
  have husp : (post flatMem instrPha (fetched flatMem t)).chip.r.sp = t.chip.r.sp - 1 := by
    simp [fetched]
  have huenv : (post flatMem instrPha (fetched flatMem t)).env =
      Function.update t.env (stackAddr t.chip.r.sp) t.chip.r.acc := by
    simp [fetched]
  generalize post flatMem instrPha (fetched flatMem t) = u at *
  have hop : opcode flatMem u = 0x28 := by
    show u.env u.chip.r.pc = 0x28
    rw [huenv, hupc, Function.update_of_ne (ne_stackAddr hrom _), hplp]
  have hpulled : statusPulled flatMem u .run = some t.chip.r.acc := by
    unfold statusPulled
    rw [if_neg (by simp [husig]), hop]
    show some (plpByte flatMem (fetched flatMem u)) = _
    rw [plpByte_flat]
    show some (u.env (stackAddr (u.chip.r.sp + 1))) = _
    rw [husp, BitVec.sub_add_cancel, huenv, Function.update_self]
  rw [hpulled]
  rfl

end Flat

/-- PHA and PLP, run after power. -/
def phaPlp : Mem := fun a =>
  if a.toNat = 0x8000 then 0x48 else if a.toNat = 0x8001 then 0x28
  else if a.toNat = 0xFFFD then 0x80 else 0

/-- Power has loaded A with 0: PLP pulls a byte with bit 5 clear. -/
theorem not_keepsUnused_pha :
    ¬KeepsUnused flatMem ⟨{}, phaPlp⟩ [.run, .run] := by
  intro h
  have hset := h.boundary [.run, .run] [] rfl
  have hcall : call flatMem ⟨{}, phaPlp⟩ .power = post flatMem power ⟨{}, phaPlp⟩ := by
    rw [call, Call.prog]
  rw [hcall] at hset
  obtain ⟨henv, hpc⟩ := power_flat ⟨{}, phaPlp⟩
  have hacc := power_acc ⟨{}, phaPlp⟩
  have hsig : (post flatMem power ⟨{}, phaPlp⟩).chip.sig = { entries := [.reset] } := by
    rw [power_sig]
    rfl
  replace hpc : (post flatMem power ⟨{}, phaPlp⟩).chip.r.pc = 0x8000 := hpc.trans (by decide)
  generalize post flatMem power ⟨{}, phaPlp⟩ = t at *
  have hpha : t.env t.chip.r.pc = 0x48 := by
    rw [hpc, henv _ (by decide)]
    rfl
  have hplp : t.env (t.chip.r.pc + 1) = 0x28 := by
    rw [hpc, henv _ (by decide)]
    rfl
  rw [pha_plp_unused hsig hpha hplp (by rw [hpc]; decide), hacc] at hset
  exact absurd hset (by decide)

end Cpu

end Yanesemu
