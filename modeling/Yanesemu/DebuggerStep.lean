import Yanesemu.CpuInterrupts
import Yanesemu.Debugger

/-!
# Stepping

The debugger enabled, without breakpoints, and with a callback that asks for a step on every
fetch event. The stop address is a guess: the prediction of `nextaddr`, overwritten by every read
of an even address from `0xFFFA` on. `watched` keeps track of these reads without a debugger, and
`agree_watched` says that the guess is what `watched` tells; the rest compares it with where the
CPU really goes.

1. A call that enters an interrupt ends with the read of the vector it goes to, so the guess is
   right whatever it was before.
2. An instruction other than BRK leaves a right guess if the prediction is right and no read of
   its own has spoiled it.
3. With a right guess the next opcode fetch delivers its event.
-/

namespace Yanesemu.Debugger

open Interaction EventRun
open Cpu (Call call busWord readVal lastCycle)

variable {σ : Type} {B : Handler cpuSig σ}

/-! ## Debugger programs -/

section OnCpu

variable {α : Type} (c : Cpu) (m : CpuM α) (e : Sys Debugger σ)

@[simp] theorem val_onCpu : val B (onCpu c m) e = val B m ⟨c, e.env⟩ := by
  have h := Prog.run_bind B (m.run c) (fun r => .ret (r.1, e.chip)) e.env
  exact congrArg (fun r : (α × Debugger) × σ => r.1.1) h

@[simp] theorem post_onCpu : post B (onCpu c m) e = ⟨e.chip, (post B m ⟨c, e.env⟩).env⟩ := by
  have h := Prog.run_bind B (m.run c) (fun r => .ret (r.1, e.chip)) e.env
  exact congrArg (fun r : (α × Debugger) × σ => (⟨r.1.2, r.2⟩ : Sys Debugger σ)) h

end OnCpu

@[simp] theorem val_busRead (a : Uint16) (e : Sys Debugger σ) :
    val B (busRead a) e = readVal B a e.env := rfl

@[simp] theorem post_busRead (a : Uint16) (e : Sys Debugger σ) :
    post B (busRead a) e = ⟨e.chip, Cpu.readEnv B a e.env⟩ := rfl

theorem status_env (hp : PureReads B) (s : Sys Cpu σ) :
    (post B Cpu.status s).env = s.env := by
  simp [Cpu.status, hp.readEnv_eq]

theorem nextaddr_env (hp : PureReads B) (s : Sys Cpu σ) :
    (post B Cpu.nextaddr s).env = s.env := by
  have hword (lo hi : Uint16) (t : Sys Cpu σ) : post B (Cpu.busReadWord lo hi) t = t := by
    simp [Cpu.busReadWord, hp.readEnv_eq]
  simp only [Cpu.nextaddr, post_bind, val_get, post_get, Cpu.post_busRead, hp.readEnv_eq]
  unfold Cpu.nextaddrOf
  split <;> simp [hword]

/-! ## The callback -/

/-- A step on every fetch event. -/
def stepper : BreakCallback := fun c ev =>
  match ev.type with
  | .fetch => step c
  | .brk => pure ()

/-- No breakpoints, and not told to quit. -/
structure Ready (d : Debugger) : Prop where
  quit : d.quit = false
  breakvec : d.breakvec = []

/-- The debugger after the callback of an access. -/
def noted (B : Handler cpuSig σ) (c : Cpu) (mem : σ) (addr : Uint16) (mode : AccessMode)
    (d : Debugger) : Debugger :=
  match mode with
  | .w => d
  | .r => if d.nextstop.isSome ∧ IsVector addr then
      { d with nextstop := some (busWord B mem addr (addr + 1)) } else d
  | .x =>
    let st := val B Cpu.status ⟨c, mem⟩
    let d := d.updateBacktrace st
    if d.nextstop = some addr then
      { d with
        nextstop := some (val B Cpu.nextaddr ⟨c, mem⟩)
        events := ⟨.fetch, st, 0⟩ :: d.events }
    else d

/-- The backtrace is all `updateBacktrace` touches. -/
theorem updateBacktrace_frame (st : Cpu.Status) (d : Debugger) :
    (d.updateBacktrace st).nextstop = d.nextstop ∧ (d.updateBacktrace st).events = d.events ∧
      (d.updateBacktrace st).quit = d.quit ∧ (d.updateBacktrace st).breakvec = d.breakvec := by
  unfold updateBacktrace
  split
  any_goals exact ⟨rfl, rfl, rfl, rfl⟩
  split
  · exact ⟨rfl, rfl, rfl, rfl⟩
  · split <;> exact ⟨rfl, rfl, rfl, rfl⟩

theorem Ready.updateBacktrace {d : Debugger} (hd : Ready d) (st : Cpu.Status) :
    Ready (d.updateBacktrace st) := by
  obtain ⟨-, -, hq, hb⟩ := updateBacktrace_frame st d
  exact ⟨hq.trans hd.quit, hb.trans hd.breakvec⟩

theorem checkBreak_ready {d : Debugger} (hd : Ready d) (cb : BreakCallback) (c : Cpu)
    (st : Cpu.Status) (addr : Uint16) (mode : AccessMode) (mem : σ) :
    post B (checkBreak cb c st addr mode) ⟨d, mem⟩ = ⟨d, mem⟩ := by
  have hfind : d.findBreak addr mode = none := by
    unfold findBreak; rw [hd.breakvec]; rfl
  unfold checkBreak
  rw [post_bind, val_get, post_get, hfind]
  rfl

/-- The stop of an opcode fetch: the event is delivered, and the callback predicts the next. -/
theorem checkStop_hit (hp : PureReads B) (c : Cpu) (st : Cpu.Status) (addr : Uint16)
    {d : Debugger} (hd : d.nextstop = some addr) (mem : σ) :
    post B (checkStop stepper c st addr .x) ⟨d, mem⟩ =
      ⟨{ d with
          nextstop := some (val B Cpu.nextaddr ⟨c, mem⟩)
          events := ⟨.fetch, st, 0⟩ :: d.events }, mem⟩ := by
  simp [checkStop, hd, deliver, stepper, step, nextaddr_env hp]

theorem checkStop_miss (c : Cpu) (st : Cpu.Status) (addr : Uint16) {d : Debugger}
    (hd : d.nextstop ≠ some addr) (mem : σ) :
    post B (checkStop stepper c st addr .x) ⟨d, mem⟩ = ⟨d, mem⟩ := by
  unfold checkStop
  rw [post_bind, val_get, post_get]
  cases hs : d.nextstop with
  | none => simp
  | some stop =>
    have hne : ¬addr = stop := fun h => hd (by rw [hs, h])
    simp [hne]

theorem checkStop_write (c : Cpu) (st : Cpu.Status) (addr : Uint16) (d : Debugger) (mem : σ) :
    post B (checkStop stepper c st addr .w) ⟨d, mem⟩ = ⟨d, mem⟩ := by
  unfold checkStop
  rw [post_bind, val_get, post_get]
  cases d.nextstop <;> simp

/-- A read of a vector replaces the stop address, if there is one. -/
theorem checkStop_read (hp : PureReads B) (c : Cpu) (st : Cpu.Status) (addr : Uint16)
    (d : Debugger) (mem : σ) :
    post B (checkStop stepper c st addr .r) ⟨d, mem⟩ =
      ⟨if d.nextstop.isSome ∧ IsVector addr then
          { d with nextstop := some (busWord B mem addr (addr + 1)) } else d, mem⟩ := by
  unfold checkStop
  rw [post_bind, val_get, post_get]
  cases hs : d.nextstop with
  | none => simp
  | some stop =>
    by_cases hv : IsVector addr
    · simp [hv, hp.readEnv_eq, busWord]
    · simp [hv]

/-- **The callback.** -/
theorem debugged_callback (hp : PureReads B) {d : Debugger} (hd : Ready d) (c : Cpu)
    (addr : Uint16) (mode : AccessMode) (mem : σ) :
    (debugged B (some stepper) (.fetchCallback c addr mode) ⟨d, mem⟩).2 =
      ⟨noted B c mem addr mode d, mem⟩ := by
  show post B (do fetchCallback (some stepper) c (← onCpu c Cpu.status) addr mode) ⟨d, mem⟩ = _
  have hquit : ¬d.quit = true := by rw [hd.quit]; decide
  rw [post_bind, post_onCpu, val_onCpu, status_env hp]
  unfold fetchCallback
  rw [post_bind, val_get, post_get, if_neg hquit, post_bind, post_bind]
  set st := val B Cpu.status ⟨c, mem⟩ with hst
  cases mode with
  | w =>
    rw [if_neg (by decide), post_pure, checkBreak_ready hd, checkStop_write]
    rfl
  | r =>
    rw [if_neg (by decide), post_pure, checkBreak_ready hd, checkStop_read hp]
    rfl
  | x =>
    rw [if_pos rfl, post_modify, checkBreak_ready (hd.updateBacktrace st)]
    unfold noted
    rw [← hst]
    dsimp only
    split
    · rename_i h
      exact checkStop_hit hp c st addr h mem
    · rename_i h
      exact checkStop_miss c st addr h mem

end Yanesemu.Debugger

namespace Yanesemu.Cpu

open Interaction

/-! ## Accesses after the opcode fetch -/

/-- Not the callback of an opcode fetch. -/
def NotFetch : CpuOp → Prop
  | .fetchCallback _ _ .x => False
  | _ => True

section NotFetch

variable {σ : Type} (H : Handler cpuSig σ) (s : Sys Cpu σ)

attribute [local simp] NotFetch

theorem interrupt_notFetch : ∀ o ∈ asked H interrupt s, NotFetch o := by
  simp [interrupt]

theorem impld_notFetch (func : InstrImpld) : ∀ o ∈ asked H func.func s, NotFetch o := by
  cases func
  case brk => simpa [instrBrk] using interrupt_notFetch H _
  all_goals simp

theorem branch_notFetch (take : Bool) : ∀ o ∈ asked H (instrBranch take) s, NotFetch o := by
  cases take <;> simp [instrBranch]

/-- An instruction makes no second opcode fetch. -/
theorem exec_notFetch (c : Case) : ∀ o ∈ asked H c.exec s, NotFetch o := by
  cases c with
  | impld func => exact impld_notFetch H s func
  | read name mode => cases mode <;> simp [Case.exec]
  | modify name mode => cases mode <;> simp [Case.exec]
  | write mode v => cases mode <;> simp [Case.exec]
  | branch f v => exact branch_notFetch H s _
  | flag f v => simp [Case.exec, instrFlag]
  | transfer src dst => simp [Case.exec, instrTransfer]
  | unknown => simp [Case.exec]

theorem clearBus_notFetch (start : Uint16) (n : ℕ) :
    ∀ o ∈ asked H (clearBus start n) s, NotFetch o := by
  induction n with
  | zero => simp [clearBus]
  | succ n ih =>
    intro o ho
    rw [clearBus, asked_bind, List.mem_append] at ho
    rcases ho with ho | ho
    · exact ih o ho
    · rw [show o = .write _ 0 from List.mem_singleton.mp ho]
      trivial

/-- The calls other than `run` make no opcode fetch. -/
theorem call_notFetch (c : Call) (hc : c ≠ .run) : ∀ o ∈ asked H c.prog s, NotFetch o := by
  cases c with
  | run => exact absurd rfl hc
  | fireNmi => exact fun o ho => absurd ho (List.not_mem_nil)
  | fireIrq => exact fun o ho => absurd ho (List.not_mem_nil)
  | reset =>
    intro o ho
    rw [Call.prog, reset, asked_bind, asked_bind, List.mem_append, List.mem_append] at ho
    rcases ho with ho | ho | ho
    · rw [show o = .write 0x4015 0 from List.mem_singleton.mp ho]
      trivial
    · exact absurd ho (List.not_mem_nil)
    · exact interrupt_notFetch H _ o ho
  | power =>
    intro o ho
    rw [Call.prog, power] at ho
    simp only [asked_bind, List.mem_append] at ho
    rcases ho with ho | ho | ho | ho | ho | ho | ho | ho
    · exact absurd ho (List.not_mem_nil)
    · exact clearBus_notFetch H _ _ _ o ho
    · exact absurd ho (List.not_mem_nil)
    · rw [show o = .write 0x4017 0 from List.mem_singleton.mp ho]
      trivial
    · rw [show o = .write 0x4015 0 from List.mem_singleton.mp ho]
      trivial
    · exact clearBus_notFetch H _ _ _ o ho
    · exact absurd ho (List.not_mem_nil)
    · exact interrupt_notFetch H _ o ho

end NotFetch

end Yanesemu.Cpu

namespace Yanesemu.Debugger

open Interaction EventRun
open Cpu (Call call busWord readVal NotFetch)

variable {σ : Type} {B : Handler cpuSig σ}

/-! ## Watching the vectors -/

/-- The bus `B` with a note of the word at the last vector that was read. -/
def watched (B : Handler cpuSig σ) : Handler cpuSig (σ × Option Uint16)
  | .read a, e => ((B (.read a) e.1).1, (B (.read a) e.1).2, e.2)
  | .write a v, e => ((B (.write a v) e.1).1, (B (.write a v) e.1).2, e.2)
  | .fetchCallback _ a mode, e =>
    ((), e.1, if mode = .r ∧ IsVector a then some (busWord B e.1 a (a + 1)) else e.2)

/-- The word at the last vector a program of the CPU reads, if it reads one. -/
def lastVector (B : Handler cpuSig σ) (m : CpuM Unit) (s : Sys Cpu σ) : Option Uint16 :=
  (post (watched B) m ⟨s.chip, (s.env, none)⟩).env.2

/-- Watching does not change a run. -/
theorem watched_run (hp : PureReads B) (m : CpuM Unit) (c : Cpu) (mem : σ) (w : Option Uint16) :
    (post (watched B) m ⟨c, (mem, w)⟩).chip = (post B m ⟨c, mem⟩).chip ∧
      (post (watched B) m ⟨c, (mem, w)⟩).env.1 = (post B m ⟨c, mem⟩).env := by
  have hagree : Agree (fun _ => True) (fun (e : σ × Option Uint16) (e' : σ) => e.1 = e')
      (watched B) B := by
    rintro o e _ - rfl
    cases o with
    | read a => exact ⟨rfl, rfl⟩
    | write a v => exact ⟨rfl, rfl⟩
    | fetchCallback c a mode => exact ⟨rfl, (hp.callback c a mode e.1).symm⟩
  have h := post_sim (s := ⟨c, (mem, w)⟩) hagree (fun _ _ => trivial) (m := m) rfl
  exact h.2

/-- **The guess.** Between opcode fetches, the debugger's stop address is the last vector read,
or what it was if there was none. -/
theorem agree_watched (hp : PureReads B) {d : Debugger} (hd : Ready d) (stop : Uint16) :
    Agree NotFetch
      (fun (e : Sys Debugger σ) (w : σ × Option Uint16) =>
        e = ⟨{ d with nextstop := some (w.2.getD stop) }, w.1⟩)
      (debugged B (some stepper)) (watched B) := by
  rintro o _ ⟨mem, w⟩ ho rfl
  cases o with
  | read a => exact ⟨rfl, rfl⟩
  | write a v => exact ⟨rfl, rfl⟩
  | fetchCallback c a mode =>
    refine ⟨rfl, ?_⟩
    rw [debugged_callback hp (d := { d with nextstop := some (w.getD stop) })
      ⟨hd.quit, hd.breakvec⟩]
    cases mode with
    | x => exact ho.elim
    | w => rfl
    | r =>
      show (⟨if _ ∧ IsVector a then _ else _, mem⟩ : Sys Debugger σ) =
        ⟨{ d with nextstop := some ((if _ ∧ IsVector a then _ else w).getD stop) }, mem⟩
      by_cases hv : IsVector a
      · rw [if_pos ⟨rfl, hv⟩, if_pos ⟨rfl, hv⟩]
        rfl
      · rw [if_neg (fun h => hv h.2), if_neg (fun h => hv h.2)]

/-- The debugger after a program without opcode fetches. -/
theorem debugged_run (hp : PureReads B) {m : CpuM Unit} {c : Cpu} {d : Debugger} {mem : σ}
    {stop : Uint16} (hd : Ready d) (hstop : d.nextstop = some stop)
    (hm : ∀ o ∈ asked (debugged B (some stepper)) m ⟨c, ⟨d, mem⟩⟩, NotFetch o) :
    post (debugged B (some stepper)) m ⟨c, ⟨d, mem⟩⟩ =
      ⟨(post B m ⟨c, mem⟩).chip,
        ⟨{ d with nextstop := some ((lastVector B m ⟨c, mem⟩).getD stop) },
          (post B m ⟨c, mem⟩).env⟩⟩ := by
  have h := post_sim (agree_watched hp hd stop) hm (t := (mem, none))
    (by rw [Option.getD_none, ← hstop])
  obtain ⟨hc, hm⟩ := watched_run hp m c mem none
  refine Sys.ext (h.2.1.trans hc) (h.2.2.trans ?_)
  show (⟨_, _⟩ : Sys Debugger σ) = _
  rw [hm]
  rfl

/-! ## Entries -/

/-- The last vector the program reads is the one the program counter is loaded from. -/
def Enters (B : Handler cpuSig σ) {α : Type} (m : CpuM α) : Prop :=
  ∀ c mem w, (post (watched B) m ⟨c, (mem, w)⟩).env.2 = some (post B m ⟨c, mem⟩).chip.r.pc

theorem isVector_entry (i : Signals) : IsVector i.entry.vec ∧ ¬IsVector (i.entry.vec + 1) := by
  cases i.entry <;> decide

@[simp] theorem readEnv_watched (a : Uint16) (e : σ × Option Uint16) :
    Cpu.readEnv (watched B) a e = (Cpu.readEnv B a e.1, e.2) := rfl

@[simp] theorem writeEnv_watched (a : Uint16) (v : Uint8) (e : σ × Option Uint16) :
    Cpu.writeEnv (watched B) a v e = (Cpu.writeEnv B a v e.1, e.2) := rfl

@[simp] theorem called_watched (c : Cpu) (a : Uint16) (mode : AccessMode)
    (e : σ × Option Uint16) : Cpu.called (watched B) c a mode e =
      (e.1, if mode = .r ∧ IsVector a then some (busWord B e.1 a (a + 1)) else e.2) := rfl

theorem enters_interrupt (hp : PureReads B) : Enters B Cpu.interrupt := by
  intro c mem w
  have hv : IsVector c.sig.entry.vec := (isVector_entry c.sig).1
  have hv' : ¬IsVector (c.sig.entry.vec + 1#16) := (isVector_entry c.sig).2
  rw [Cpu.interrupt_pc _ hp]
  simp [Cpu.interrupt, hp.readEnv_eq, hv, hv', Cpu.stacked]

theorem Enters.bind (hp : PureReads B) {f : Unit → CpuM Unit} (hf : ∀ a, Enters B (f a))
    (m : CpuM Unit) : Enters B (m >>= f) := by
  intro c mem w
  obtain ⟨hc, hm⟩ := watched_run hp m c mem w
  have hpost : post (watched B) m ⟨c, (mem, w)⟩ =
      ⟨(post B m ⟨c, mem⟩).chip, ((post B m ⟨c, mem⟩).env,
        (post (watched B) m ⟨c, (mem, w)⟩).env.2)⟩ := by
    rw [← hc, ← hm]
  rw [post_bind, post_bind, hpost]
  exact hf _ _ _ _

theorem enters_brk (hp : PureReads B) : Enters B Cpu.instrBrk :=
  Enters.bind hp (fun _ => enters_interrupt hp) _

theorem enters_reset (hp : PureReads B) : Enters B Cpu.reset :=
  Enters.bind hp (fun _ => Enters.bind hp (fun _ => enters_interrupt hp) _) _

theorem enters_power (hp : PureReads B) : Enters B Cpu.power := by
  unfold Cpu.power
  iterate 7 refine Enters.bind hp (fun _ => ?_) _
  exact enters_interrupt hp

/-! ## Calls -/

/-- The machine without its debugger. -/
def bare (s : Sys Cpu (Sys Debugger σ)) : Sys Cpu σ := ⟨s.chip, s.env.env⟩

theorem Ready.noted {d : Debugger} (hd : Ready d) (c : Cpu) (mem : σ)
    (addr : Uint16) (mode : AccessMode) : Ready (noted B c mem addr mode d) := by
  cases mode with
  | w => exact hd
  | r =>
    simp only [Debugger.noted]
    split
    · exact ⟨hd.quit, hd.breakvec⟩
    · exact hd
  | x =>
    have hu := hd.updateBacktrace (val B Cpu.status ⟨c, mem⟩)
    simp only [Debugger.noted]
    split
    · exact ⟨hu.quit, hu.breakvec⟩
    · exact hu

/-- **Transparency.** The debugger stays ready and changes nothing of the machine it watches. -/
theorem debugged_transparent (hp : PureReads B) {α : Type} (m : CpuM α)
    {s : Sys Cpu (Sys Debugger σ)} (hd : Ready s.env.chip) :
    bare (post (debugged B (some stepper)) m s) = post B m (bare s) ∧
      Ready (post (debugged B (some stepper)) m s).env.chip := by
  have hagree : Agree (fun _ => True)
      (fun (e : Sys Debugger σ) (mem : σ) => e.env = mem ∧ Ready e.chip)
      (debugged B (some stepper)) B := by
    rintro o ⟨d, mem⟩ _ - ⟨rfl, hd⟩
    cases o with
    | read a => exact ⟨rfl, rfl, hd⟩
    | write a v => exact ⟨rfl, rfl, hd⟩
    | fetchCallback c a mode =>
      rw [debugged_callback hp hd]
      exact ⟨rfl, (hp.callback c a mode mem).symm, hd.noted c mem a mode⟩
  obtain ⟨-, hc, hm, hr⟩ := post_sim hagree (fun _ _ => trivial) (m := m) (s := s) ⟨rfl, hd⟩
  exact ⟨Sys.ext hc hm, hr⟩

/-- Events are delivered on opcode fetches only. -/
theorem events_of_notFetch (hp : PureReads B) {m : CpuM Unit} {s : Sys Cpu (Sys Debugger σ)}
    (hd : Ready s.env.chip) (hm : ∀ o ∈ asked (debugged B (some stepper)) m s, NotFetch o) :
    (post (debugged B (some stepper)) m s).env.chip.events = s.env.chip.events := by
  have hagree : Agree NotFetch
      (fun (e : Sys Debugger σ) (mem : σ) =>
        e.env = mem ∧ Ready e.chip ∧ e.chip.events = s.env.chip.events)
      (debugged B (some stepper)) B := by
    rintro o ⟨d, mem⟩ _ ho ⟨rfl, hd, he⟩
    cases o with
    | read a => exact ⟨rfl, rfl, hd, he⟩
    | write a v => exact ⟨rfl, rfl, hd, he⟩
    | fetchCallback c a mode =>
      rw [debugged_callback hp hd]
      refine ⟨rfl, (hp.callback c a mode mem).symm, hd.noted c mem a mode, ?_⟩
      cases mode with
      | x => exact ho.elim
      | w => exact he
      | r =>
        simp only [noted]
        split
        · exact he
        · exact he
  exact (post_sim hagree hm ⟨rfl, hd, rfl⟩).2.2.2.2

/-- The stop address is where the CPU is. -/
structure Armed (s : Sys Cpu (Sys Debugger σ)) : Prop where
  ready : Ready s.env.chip
  stop : s.env.chip.nextstop = some s.chip.r.pc

/-- After a program that enters an interrupt the guess is right, whatever it was. -/
theorem Enters.armed (hp : PureReads B) {m : CpuM Unit} (h : Enters B m)
    {s : Sys Cpu (Sys Debugger σ)} {stop : Uint16} (hd : Ready s.env.chip)
    (hstop : s.env.chip.nextstop = some stop)
    (hm : ∀ o ∈ asked (debugged B (some stepper)) m s, NotFetch o) :
    Armed (post (debugged B (some stepper)) m s) := by
  obtain ⟨c, d, mem⟩ := s
  have hlast : lastVector B m ⟨c, mem⟩ = some (post B m ⟨c, mem⟩).chip.r.pc := h c mem none
  rw [debugged_run hp hd hstop hm, hlast]
  exact ⟨⟨hd.quit, hd.breakvec⟩, rfl⟩

/-- A `run` that fetches an opcode, not one that executes an interrupt. -/
def Fetches (c : Cpu) : Prop := c.sig.execnmi = false ∧ c.sig.execirq = false

instance : DecidablePred Fetches := fun _ => inferInstanceAs (Decidable (_ ∧ _))

/-- Calls without an opcode fetch keep the guess right. -/
theorem Armed.between (hp : PureReads B) {s : Sys Cpu (Sys Debugger σ)} (hs : Armed s) (c : Call)
    (hc : c = .run → ¬Fetches s.chip) : Armed (call (debugged B (some stepper)) s c) := by
  have hnot (m : CpuM Unit) (hm : m = c.prog) (hrun : c ≠ .run) :
      ∀ o ∈ asked (debugged B (some stepper)) m s, NotFetch o := by
    rw [hm]
    exact Cpu.call_notFetch _ s c hrun
  cases c with
  | fireNmi => exact ⟨hs.ready, hs.stop⟩
  | fireIrq => exact ⟨hs.ready, hs.stop⟩
  | reset => exact (enters_reset hp).armed hp hs.ready hs.stop (hnot _ rfl (by decide))
  | power => exact (enters_power hp).armed hp hs.ready hs.stop (hnot _ rfl (by decide))
  | run =>
    have hint : Armed (post (debugged B (some stepper)) Cpu.interrupt (Cpu.ticked s)) :=
      (enters_interrupt hp).armed hp (s := Cpu.ticked s) hs.ready hs.stop
        (Cpu.interrupt_notFetch _ _)
    show Armed (post (debugged B (some stepper)) Cpu.run s)
    cases hn : s.chip.sig.execnmi with
    | true =>
      rw [Cpu.post_run_nmi _ s hn]
      exact ⟨hint.ready, hint.stop⟩
    | false =>
      have hi : s.chip.sig.execirq = true := by
        rw [← Bool.not_eq_false]
        exact fun hi => hc rfl ⟨hn, hi⟩
      rw [Cpu.post_run_irq _ s hn hi]
      exact ⟨hint.ready, hint.stop⟩

/-! ## Opcode fetches -/

/-- The CPU and the debugger when the instruction starts. -/
theorem post_fetching (hp : PureReads B) {s : Sys Cpu (Sys Debugger σ)} (hd : Ready s.env.chip)
    (hf : Fetches s.chip) :
    call (debugged B (some stepper)) s .run =
      post (debugged B (some stepper))
        (Cpu.executeTab (readVal B s.chip.r.pc s.env.env)).exec
        ⟨Cpu.pastOpcode s.chip,
          ⟨noted B s.chip s.env.env s.chip.r.pc .x s.env.chip, s.env.env⟩⟩ := by
  have hcalled : Cpu.called (debugged B (some stepper)) s.chip s.chip.r.pc .x s.env =
      ⟨noted B s.chip s.env.env s.chip.r.pc .x s.env.chip, s.env.env⟩ :=
    debugged_callback hp hd s.chip s.chip.r.pc .x s.env.env
  have hread (d : Debugger) (mem : σ) (a : Uint16) :
      Cpu.readEnv (debugged B (some stepper)) a ⟨d, mem⟩ = ⟨d, mem⟩ :=
    congrArg (Sys.mk d) (hp.read a mem)
  show post _ Cpu.run s = _
  rw [Cpu.post_run_instr _ s hf.1 hf.2]
  unfold Cpu.opcode Cpu.fetched
  rw [hcalled, hread]
  rfl

/-- The vectors read by a `run` are those its instruction reads. -/
theorem lastVector_run (hp : PureReads B) {c : Cpu} (mem : σ) (hf : Fetches c) :
    lastVector B Cpu.run ⟨c, mem⟩ =
      lastVector B (Cpu.executeTab (readVal B c.r.pc mem)).exec ⟨Cpu.pastOpcode c, mem⟩ := by
  unfold lastVector
  rw [Cpu.post_run_instr (watched B) ⟨c, (mem, none)⟩ hf.1 hf.2]
  have hfetched : Cpu.fetched (watched B) ⟨c, (mem, none)⟩ = ⟨Cpu.pastOpcode c, (mem, none)⟩ := by
    unfold Cpu.fetched
    rw [called_watched, readEnv_watched, hp.readEnv_eq]
    rfl
  rw [hfetched]
  rfl

/-- The `run` in `s` delivers a fetch event for the opcode it fetches. -/
def Delivered (D : Handler cpuSig (Sys Debugger σ)) (s : Sys Cpu (Sys Debugger σ)) : Prop :=
  ∃ ev, (call D s .run).env.chip.events = ev :: s.env.chip.events ∧ ev.type = .fetch ∧
    ev.cpuSt.regs.pc = s.chip.r.pc

/-- The event is there exactly if the guess was right. -/
theorem delivered_iff (hp : PureReads B) {s : Sys Cpu (Sys Debugger σ)} (hd : Ready s.env.chip)
    (hf : Fetches s.chip) :
    Delivered (debugged B (some stepper)) s ↔ s.env.chip.nextstop = some s.chip.r.pc := by
  have hevents : (call (debugged B (some stepper)) s .run).env.chip.events =
      (noted B s.chip s.env.env s.chip.r.pc .x s.env.chip).events := by
    rw [post_fetching hp hd hf]
    have hr := hd.noted (B := B) s.chip s.env.env s.chip.r.pc .x
    exact events_of_notFetch hp hr (Cpu.exec_notFetch _ _ _)
  obtain ⟨hstop, hev, -⟩ :=
    updateBacktrace_frame (val B Cpu.status ⟨s.chip, s.env.env⟩) s.env.chip
  unfold Delivered
  rw [hevents]
  simp only [noted, hstop]
  constructor
  · rintro ⟨ev, h, -⟩
    by_contra hne
    rw [if_neg hne, hev] at h
    exact List.cons_ne_self _ _ h.symm
  · intro h
    rw [if_pos h, hev]
    exact ⟨_, rfl, rfl, by simp [Cpu.status]⟩

/-- The prediction for the instruction at the program counter is right. -/
def Predicted (B : Handler cpuSig σ) (s : Sys Cpu σ) : Prop :=
  val B Cpu.nextaddr s = (post B Cpu.run s).chip.r.pc

instance (s : Sys Cpu σ) : Decidable (Predicted B s) := inferInstanceAs (Decidable (_ = _))

/-- The instruction at the program counter reads no vector, or the word at the last one it reads
is where it goes. -/
def KeepsGuess (B : Handler cpuSig σ) (s : Sys Cpu σ) : Prop :=
  ∀ w ∈ lastVector B Cpu.run s, w = (post B Cpu.run s).chip.r.pc

instance (s : Sys Cpu σ) : Decidable (KeepsGuess B s) :=
  inferInstanceAs (Decidable (∀ w ∈ lastVector B Cpu.run s, _))

/-- **An instruction.** BRK makes the guess right by itself; any other instruction leaves it right
if the prediction is and no read has spoiled it. -/
theorem Armed.run_fetch (hp : PureReads B) {s : Sys Cpu (Sys Debugger σ)} (hs : Armed s)
    (hf : Fetches s.chip)
    (hok : readVal B s.chip.r.pc s.env.env ≠ 0x00 → Predicted B (bare s) ∧ KeepsGuess B (bare s)) :
    Armed (call (debugged B (some stepper)) s .run) := by
  have hu := updateBacktrace_frame (val B Cpu.status ⟨s.chip, s.env.env⟩) s.env.chip
  have hstop : (noted B s.chip s.env.env s.chip.r.pc .x s.env.chip).nextstop =
      some (val B Cpu.nextaddr (bare s)) := by
    simp only [noted]
    rw [if_pos (hu.1.trans hs.stop)]
    rfl
  have hr := hs.ready.noted (B := B) s.chip s.env.env s.chip.r.pc .x
  by_cases hbrk : readVal B s.chip.r.pc s.env.env = 0x00
  · rw [post_fetching hp hs.ready hf, hbrk]
    exact (enters_brk hp).armed hp hr hstop (Cpu.exec_notFetch _ _ (.impld .brk))
  · obtain ⟨hpred, hkeep⟩ := hok hbrk
    obtain ⟨htr, hready⟩ := debugged_transparent hp Cpu.run hs.ready
    refine ⟨hready, ?_⟩
    have hpc : (call (debugged B (some stepper)) s .run).chip.r.pc =
        (post B Cpu.run (bare s)).chip.r.pc := congrArg (fun t => t.chip.r.pc) htr
    rw [hpc, post_fetching hp hs.ready hf,
      debugged_run hp hr hstop (Cpu.exec_notFetch _ _ _), ← lastVector_run hp _ hf]
    show some ((lastVector B Cpu.run (bare s)).getD _) = _
    cases hv : lastVector B Cpu.run (bare s) with
    | none => exact congrArg some hpred
    | some w => exact congrArg some (hkeep w hv)

/-! ## Runs -/

theorem ready_after (hp : PureReads B) {s : Sys Cpu (Sys Debugger σ)} (hs : Ready s.env.chip)
    (calls : List Call) : Ready (after (call (debugged B (some stepper))) s calls).env.chip := by
  have hstep (t : Sys Cpu (Sys Debugger σ)) (c : Call) (ht : Ready t.env.chip) :
      Ready (call (debugged B (some stepper)) t c).env.chip :=
    (debugged_transparent hp c.prog ht).2
  exact after_inv (I := fun t : Sys Cpu (Sys Debugger σ) => Ready t.env.chip) hstep hs calls

/-- From a right guess: the fetch after this one delivers its event. -/
theorem Armed.next_fetch (hp : PureReads B) {s : Sys Cpu (Sys Debugger σ)} (hs : Armed s)
    (hf : Fetches s.chip)
    (hok : readVal B s.chip.r.pc s.env.env ≠ 0x00 → Predicted B (bare s) ∧ KeepsGuess B (bare s))
    {mid : List Call}
    (hmid : ∀ m ∈ moments (call (debugged B (some stepper)))
      (call (debugged B (some stepper)) s .run) mid, m.2 = .run → ¬Fetches m.1.chip)
    (hf' : Fetches (after (call (debugged B (some stepper)))
      (call (debugged B (some stepper)) s .run) mid).chip) :
    Delivered (debugged B (some stepper))
      (after (call (debugged B (some stepper))) (call (debugged B (some stepper)) s .run) mid) := by
  have ha := hs.run_fetch hp hf hok
  have ha' := after_inv_of_guard (G := fun t c => c = .run → ¬Fetches t.chip)
    (fun t c ht hG => ht.between hp c hG) ha mid hmid
  exact (delivered_iff hp ha'.ready hf').mpr ha'.stop

/-- When the `run` in `s` fetches an opcode and delivers its event, so does the next `run` that
fetches one, after the calls `mid`. -/
def NextDelivers (D : Handler cpuSig (Sys Debugger σ)) (s : Sys Cpu (Sys Debugger σ))
    (mid : List Call) : Prop :=
  Fetches s.chip → Delivered D s →
    (∀ m ∈ moments (call D) (call D s .run) mid, m.2 = .run → ¬Fetches m.1.chip) →
    Fetches (after (call D) (call D s .run) mid).chip →
    Delivered D (after (call D) (call D s .run) mid)

/-- **One event for each fetch.** After a fetch event the next one is delivered at the very next
opcode fetch, wherever in the run and whatever calls come in between. -/
def StepPromise (D : Handler cpuSig (Sys Debugger σ)) (s : Sys Cpu (Sys Debugger σ))
    (calls : List Call) : Prop :=
  ∀ pre mid suf, calls = pre ++ .run :: (mid ++ .run :: suf) →
    NextDelivers D (after (call D) s pre) mid

/-- An instruction is executed, other than BRK. -/
def Stepped (B : Handler cpuSig σ) (m : Sys Cpu (Sys Debugger σ) × Call) : Prop :=
  m.2 = .run ∧ Fetches m.1.chip ∧ readVal B m.1.chip.r.pc m.1.env.env ≠ 0x00

instance : DecidablePred (Stepped (σ := σ) B) := fun _ => inferInstanceAs (Decidable (_ ∧ _))

/-- **Stepping.** On a bus whose reads have no side effect, in every run in which each prediction
is right and no instruction other than BRK reads a vector that does not lead to its successor,
the event after a fetch event is that of the very next fetch. -/
theorem step_delivers (hp : PureReads B) {s : Sys Cpu (Sys Debugger σ)} (hs : Ready s.env.chip)
    (calls : List Call)
    (hpred : ∀ m ∈ moments (call (debugged B (some stepper))) s calls,
      Stepped B m → Predicted B (bare m.1))
    (hkeep : ∀ m ∈ moments (call (debugged B (some stepper))) s calls,
      Stepped B m → KeepsGuess B (bare m.1)) :
    StepPromise (debugged B (some stepper)) s calls := by
  intro pre mid suf hcalls
  have hr := ready_after hp hs pre
  have hm : (after (call (debugged B (some stepper))) s pre, Call.run) ∈
      moments (call (debugged B (some stepper))) s calls :=
    mem_moments_iff.mpr ⟨pre, _, hcalls, rfl⟩
  generalize after (call (debugged B (some stepper))) s pre = s₁ at hr hm ⊢
  intro hf₁ hd₁ hmid hf₂
  have ha : Armed s₁ := ⟨hr, (delivered_iff hp hr hf₁).mp hd₁⟩
  have hok (hb : readVal B s₁.chip.r.pc s₁.env.env ≠ 0x00) :
      Predicted B (bare s₁) ∧ KeepsGuess B (bare s₁) :=
    ⟨hpred (s₁, .run) hm ⟨rfl, hf₁, hb⟩, hkeep (s₁, .run) hm ⟨rfl, hf₁, hb⟩⟩
  exact ha.next_fetch hp hf₁ hok hmid hf₂

theorem lastVector_nops {c : Cpu} (hf : Fetches c) :
    lastVector flatMem Cpu.run ⟨c, Cpu.nops⟩ = none := by
  rw [lastVector_run pureReads_flatMem _ hf]
  rfl

/-- Two NOPs, from the state the debugger starts in. -/
theorem step_delivers_nops :
    StepPromise (debugged flatMem (some stepper)) ⟨{}, ⟨{}, Cpu.nops⟩⟩ [.run, .run] := by
  have hready : Ready ({} : Debugger) := ⟨rfl, rfl⟩
  refine step_delivers (s := ⟨{}, ⟨{}, Cpu.nops⟩⟩) pureReads_flatMem hready [.run, .run] ?_ ?_
  · decide
  · have hmem : ∀ m ∈ moments (call (debugged flatMem (some stepper))) ⟨{}, ⟨{}, Cpu.nops⟩⟩
        [.run, .run], m.1.env.env = Cpu.nops := by
      simp only [moments_cons, moments_nil, List.forall_mem_cons]
      exact ⟨trivial, rfl, by simp⟩
    rintro m hm ⟨-, hf, -⟩ w hw
    unfold bare at hw
    rw [hmem m hm, lastVector_nops hf] at hw
    cases hw

/-- `LDA $FFFA` at the reset vector's target, NOPs elsewhere. -/
def ldaVector : Mem := fun a =>
  match a.toNat with
  | 0x8000 => 0xAD
  | 0x8001 => 0xFA
  | 0x8002 => 0xFF
  | 0xFFFC => 0x00
  | 0xFFFD => 0x80
  | _ => 0xEA

/-- Reading the NMI vector as data costs the next event: LDA is fetched with an event, and its
successor at `0x8003`, which the prediction names, without. -/
theorem not_stepPromise_lda :
    (∀ m ∈ moments (call (debugged flatMem (some stepper))) ⟨{}, ⟨{}, ldaVector⟩⟩
        [.reset, .run, .run], m.2 = .run → Fetches m.1.chip → Predicted flatMem (bare m.1)) ∧
      ¬StepPromise (debugged flatMem (some stepper)) ⟨{}, ⟨{}, ldaVector⟩⟩
        [.reset, .run, .run] := by
  refine ⟨by decide, ?_⟩
  intro h
  have hd : Delivered (debugged flatMem (some stepper))
      (call (debugged flatMem (some stepper)) ⟨{}, ⟨{}, ldaVector⟩⟩ .reset) :=
    ⟨_, rfl, by decide, by decide⟩
  obtain ⟨ev, hev, -⟩ := h [.reset] [] [] rfl (by decide) hd (by simp) (by decide)
  have hlen := congrArg List.length hev
  rw [List.length_cons] at hlen
  exact absurd hlen (by decide)

end Yanesemu.Debugger
