import Yanesemu.DebuggerStep
import Yanesemu.Disassembly

/-!
# The trace file

`Debugger::trace` writes one line for each opcode fetch, with the instruction as `format_instr`
shows it; the backtrace keeps the status of calls and jumps, and is printed with `disassemble`.
`traced` is the machine with the debugger enabled and with the trace file, which nothing reads.

The callback is told the status before the opcode is fetched, so the line names what is executed
if the bytes are there to be read twice and the two tables agree on the opcode (`Plain`).

1. Nothing but an opcode fetch touches the trace file and the backtrace (`keeps_notFetch`).
2. An opcode fetch adds one line (`call_recorded`).
3. In a run whose instructions are plain, both name the instructions that were executed
   (`recalls_after`).
-/

namespace Yanesemu

open Interaction EventRun

/-! ### Lines -/

def formatFlags (flags : ProcStatus) : String := String.ofList [
  if flags.neg then 'N' else 'n',
  if flags.ov then 'V' else 'v',
  if flags.unused then 'U' else 'u',
  if flags.breakf then 'B' else 'b',
  if flags.decimal then 'D' else 'd',
  if flags.intdis then 'I' else 'i',
  if flags.zero then 'Z' else 'z',
  if flags.carry then 'C' else 'c']

def isBranch (instr : Uint8) : Bool := instr &&& 0x1F == 0x10

def formatInstr (id low high : Uint8) (pc : Uint16) (flags : ProcStatus) : String :=
  let branch := " [" ++ fmtHex 2 (branchPointer low pc).toNat ++ "] [" ++
    (if tookBranch id flags then "Branch taken" else "Branch not taken") ++ "]"
  let instrStr := disassemble id low high ++ (if isBranch id then branch else "")
  "[$" ++ fmtHex 2 id.toNat ++ "] " ++ instrStr

/-- The line `trace` prints, for a status of the CPU and the VRAM address of the PPU. -/
def traceLine (st : Cpu.Status) (vram : Uint16) : String :=
  "PC: $" ++ fmtHex 4 st.regs.pc.toNat ++ " A: $" ++ fmtHex 2 st.regs.acc.toNat ++
    " X: $" ++ fmtHex 2 st.regs.x.toNat ++ " Y: $" ++ fmtHex 2 st.regs.y.toNat ++
    " SP: $" ++ fmtHex 2 st.regs.sp.toNat ++ " " ++ formatFlags st.regs.flags ++
    " V: " ++ fmtHex 4 vram.toNat ++
    " " ++ formatInstr st.id st.op.low st.op.high st.regs.pc st.regs.flags ++ "\n"

example : traceLine ⟨{ pc := 0x8000, x := 3 }, 0xB1, 0x10⟩ 0 =
    "PC: $8000 A: $00 X: $03 Y: $00 SP: $00 nvUbdizc V: 0000 [$B1] lda ($10),y\n" := by decide

/-! ### The machine with a trace file -/

/-- The debugger and its surroundings with the lines of the trace file, if one is open. -/
structure Traced (σ : Type) where
  tracefile : Option (List String) := none
  sys : Sys Debugger σ

namespace Debugger

variable {σ : Type}

/-- The debugger is running: it has a callback and was not told to quit. -/
def Watches (callback : Option BreakCallback) (d : Debugger) : Prop :=
  d.quit = false ∧ callback.isSome = true

instance (callback : Option BreakCallback) (d : Debugger) : Decidable (Watches callback d) :=
  inferInstanceAs (Decidable (_ ∧ _))

/-- `vram` is the part of the PPU's status that is printed; it is asked for after the status of
the CPU. -/
def traced (B : Handler cpuSig σ) (vram : σ → Uint16) (callback : Option BreakCallback) :
    Handler cpuSig (Traced σ)
  | .read a, e =>
    let r := debugged B callback (.read a) e.sys
    (r.1, { e with sys := r.2 })
  | .write a v, e =>
    let r := debugged B callback (.write a v) e.sys
    (r.1, { e with sys := r.2 })
  | .fetchCallback c addr mode, e =>
    let st := exec B Cpu.status ⟨c, e.sys.env⟩
    let file := if mode = .x ∧ Watches callback e.sys.chip
      then e.tracefile.map (· ++ [traceLine st.1 (vram st.2.env)]) else e.tracefile
    ((), ⟨file, (debugged B callback (.fetchCallback c addr mode) e.sys).2⟩)

/-- What happens between two instructions: a call of the CPU, or a command that opens a trace file
or closes it. -/
inductive TraceCall
  | cpu (c : Cpu.Call)
  | startTracing
  | stopTracing
  deriving DecidableEq, Repr

def traceCall (H : Handler cpuSig (Traced σ)) (s : Sys Cpu (Traced σ)) :
    TraceCall → Sys Cpu (Traced σ)
  | .cpu c => Cpu.call H s c
  | .startTracing => { s with env := { s.env with tracefile := some [] } }
  | .stopTracing => { s with env := { s.env with tracefile := none } }

variable {B : Handler cpuSig σ}

/-! ### Callbacks -/

/-- A part of the debugger's state that neither the callback nor an event or a stop changes. -/
structure Private (B : Handler cpuSig σ) (cb : BreakCallback) {α : Type} (view : Debugger → α) :
    Prop where
  callback : ∀ c ev e, view (post B (cb c ev) e).chip = view e.chip
  events : ∀ d evs, view { d with events := evs } = view d
  nextstop : ∀ d stop, view { d with nextstop := stop } = view d

section Private

variable {α : Type} {view : Debugger → α} {cb : BreakCallback} (h : Private B cb view) (c : Cpu)
  (st : Cpu.Status) (addr : Uint16) (mode : AccessMode) (e : Sys Debugger σ)
include h

theorem Private.deliver (ev : Event) :
    view (post B (deliver cb c ev) e).chip = view e.chip := by
  unfold Debugger.deliver
  rw [post_bind, h.callback]
  exact h.events ..

theorem Private.checkBreak :
    view (post B (checkBreak cb c st addr mode) e).chip = view e.chip := by
  unfold Debugger.checkBreak
  rw [post_bind, val_get, post_get]
  cases e.chip.findBreak addr mode with
  | none => rfl
  | some index => exact h.deliver c e _

theorem Private.checkStop :
    view (post B (checkStop cb c st addr mode) e).chip = view e.chip := by
  unfold Debugger.checkStop
  rw [post_bind, val_get, post_get]
  cases e.chip.nextstop with
  | none => rfl
  | some stop =>
    by_cases hv : mode = .r ∧ IsVector addr
    · simp [hv, h.nextstop]
    · by_cases ha : mode = .x ∧ addr = stop
      · simp [ha, h.deliver, h.nextstop]
      · simp [hv, ha]

end Private

/-- The callback leaves the bus alone while the CPU is stopped; the backtrace is private, so no
callback changes it. -/
structure Polite (B : Handler cpuSig σ) (callback : BreakCallback) : Prop where
  env : ∀ c ev e, (post B (callback c ev) e).env = e.env
  btrace : ∀ c ev e, (post B (callback c ev) e).chip.btrace = e.chip.btrace

section Polite

variable {cb : BreakCallback} (hcb : Polite B cb) (c : Cpu) (st : Cpu.Status) (addr : Uint16)
  (mode : AccessMode) (e : Sys Debugger σ)
include hcb

theorem deliver_env (ev : Event) : (post B (deliver cb c ev) e).env = e.env := by
  unfold deliver
  rw [post_bind, hcb.env]
  rfl

theorem checkBreak_env : (post B (checkBreak cb c st addr mode) e).env = e.env := by
  unfold checkBreak
  rw [post_bind, val_get, post_get]
  cases e.chip.findBreak addr mode with
  | none => rfl
  | some index => exact deliver_env hcb c e _

/-- An opcode fetch reads no vector. -/
theorem checkStop_env : (post B (checkStop cb c st addr .x) e).env = e.env := by
  unfold checkStop
  rw [post_bind, val_get, post_get]
  cases e.chip.nextstop with
  | none => rfl
  | some stop =>
    by_cases ha : addr = stop
    · simp [ha, deliver_env hcb]
    · simp [ha]

end Polite

section Callback

variable {callback : Option BreakCallback} (hcb : ∀ cb ∈ callback, Polite B cb) (c : Cpu)
  (st : Cpu.Status) (addr : Uint16) (mode : AccessMode) (e : Sys Debugger σ)

theorem fetchCallback_idle (hw : ¬Watches callback e.chip) :
    post B (fetchCallback callback c st addr mode) e = e := by
  unfold fetchCallback
  rw [post_bind, val_get, post_get]
  cases hq : e.chip.quit with
  | true => rfl
  | false =>
    cases callback with
    | none => rfl
    | some cb => exact absurd ⟨hq, rfl⟩ hw

/-- A running debugger on an opcode fetch. -/
theorem fetchCallback_watches {cb : BreakCallback} (hq : e.chip.quit = false) :
    post B (fetchCallback (some cb) c st addr mode) e =
      post B (checkStop cb c st addr mode) (post B (checkBreak cb c st addr mode)
        (if mode = .x then ⟨e.chip.updateBacktrace st, e.env⟩ else e)) := by
  unfold fetchCallback
  rw [post_bind, val_get, post_get, if_neg (by simp [hq]), post_bind, post_bind]
  cases mode <;> rfl

/-- Only an opcode fetch that the debugger watches reaches the private parts. -/
theorem Private.fetchCallback {α : Type} {view : Debugger → α}
    (h : ∀ cb ∈ callback, Private B cb view) :
    view (post B (fetchCallback callback c st addr mode) e).chip =
      if mode = .x ∧ Watches callback e.chip then view (e.chip.updateBacktrace st)
      else view e.chip := by
  by_cases hw : Watches callback e.chip
  · obtain ⟨cb, rfl⟩ := Option.isSome_iff_exists.mp hw.2
    rw [fetchCallback_watches _ _ _ _ _ hw.1, (h cb rfl).checkStop, (h cb rfl).checkBreak]
    by_cases hx : mode = .x
    · rw [if_pos hx, if_pos ⟨hx, hw⟩]
    · rw [if_neg hx, if_neg (fun h => hx h.1)]
  · rw [fetchCallback_idle _ _ _ _ _ hw, if_neg (fun h => hw h.2)]

include hcb

theorem fetchCallback_env : (post B (fetchCallback callback c st addr .x) e).env = e.env := by
  by_cases hw : Watches callback e.chip
  · obtain ⟨cb, rfl⟩ := Option.isSome_iff_exists.mp hw.2
    rw [fetchCallback_watches _ _ _ _ _ hw.1, checkStop_env (hcb cb rfl),
      checkBreak_env (hcb cb rfl)]
    rfl
  · rw [fetchCallback_idle _ _ _ _ _ hw]

theorem fetchCallback_btrace :
    (post B (fetchCallback callback c st addr mode) e).chip.btrace =
      if mode = .x ∧ Watches callback e.chip then (e.chip.updateBacktrace st).btrace
      else e.chip.btrace := by
  have hview (cb : BreakCallback) (h : cb ∈ callback) : Private B cb Debugger.btrace :=
    ⟨(hcb cb h).btrace, fun _ _ => rfl, fun _ _ => rfl⟩
  exact Private.fetchCallback c st addr mode e hview

end Callback

/-! ### One call -/

/-- The call fetches an opcode, and the debugger takes note of it. -/
def Recorded (callback : Option BreakCallback) (m : Sys Cpu (Traced σ) × TraceCall) : Prop :=
  m.2 = .cpu .run ∧ Fetches m.1.chip ∧ Watches callback m.1.env.sys.chip

instance (callback : Option BreakCallback) (m : Sys Cpu (Traced σ) × TraceCall) :
    Decidable (Recorded callback m) := inferInstanceAs (Decidable (_ ∧ _ ∧ _))

/-- The status names the instruction the `run` in `s` executes. -/
structure Names (H : Handler cpuSig (Traced σ)) (s : Sys Cpu (Traced σ)) (st : Cpu.Status) :
    Prop where
  regs : st.regs = s.chip.r
  tells : Cpu.Tells H (disassemble st.id st.op.low st.op.high) (Cpu.fetched H s)
    (Cpu.call H s .run)

/-- The line is that of a status that names the instruction. -/
def LineNames (H : Handler cpuSig (Traced σ)) (s : Sys Cpu (Traced σ)) (line : String) : Prop :=
  ∃ st vram, line = traceLine st vram ∧ Names H s st

/-- Reading the bytes of the instruction in `s` has no side effect, and the tables agree on it. -/
structure Plain (B : Handler cpuSig σ) (s : Sys Cpu (Traced σ)) : Prop where
  reads : ∀ a ∈ [s.chip.r.pc, s.chip.r.pc + 1, s.chip.r.pc + 2],
    Cpu.readEnv B a s.env.sys.env = s.env.sys.env
  agrees : Cpu.Agrees (Cpu.readVal B s.chip.r.pc s.env.sys.env) s.chip.r

/-- Equal in what the debugger writes down. -/
structure SameRecords (e e' : Traced σ) : Prop where
  tracefile : e'.tracefile = e.tracefile
  btrace : e'.sys.chip.btrace = e.sys.chip.btrace

variable {callback : Option BreakCallback} (vram : σ → Uint16)

/-- A `run` that enters an interrupt fetches no opcode. -/
theorem run_notFetch {ρ : Type} (H : Handler cpuSig ρ) {s : Sys Cpu ρ} (hf : ¬Fetches s.chip) :
    ∀ o ∈ asked H Cpu.run s, Cpu.NotFetch o := by
  have hint : s.chip.sig.execnmi = true ∨ s.chip.sig.execirq = true := by
    by_contra hno
    simp only [not_or, Bool.not_eq_true] at hno
    exact hf hno
  rw [Cpu.asked_run_interrupt H s hint]
  exact Cpu.interrupt_notFetch H (Cpu.ticked s)

section Call

variable (hcb : ∀ cb ∈ callback, Polite B cb)
include hcb

omit hcb in
/-- The debugger after a callback. -/
theorem sys_called (c : Cpu) (addr : Uint16) (mode : AccessMode) (e : Traced σ) :
    (Cpu.called (traced B vram callback) c addr mode e).sys =
      post B (fetchCallback callback c (val B Cpu.status ⟨c, e.sys.env⟩) addr mode)
        ⟨e.sys.chip, (post B Cpu.status ⟨c, e.sys.env⟩).env⟩ := by
  show post B (do fetchCallback callback c (← onCpu c Cpu.status) addr mode) e.sys = _
  rw [post_bind, post_onCpu, val_onCpu]

theorem btrace_called (c : Cpu) (addr : Uint16) (mode : AccessMode) (e : Traced σ) :
    (Cpu.called (traced B vram callback) c addr mode e).sys.chip.btrace =
      if mode = .x ∧ Watches callback e.sys.chip
      then (e.sys.chip.updateBacktrace (val B Cpu.status ⟨c, e.sys.env⟩)).btrace
      else e.sys.chip.btrace := by
  rw [sys_called, fetchCallback_btrace hcb]

theorem sameRecords_op {o : CpuOp} (ho : Cpu.NotFetch o) (e : Traced σ) :
    SameRecords e (traced B vram callback o e).2 := by
  cases o with
  | read a => exact ⟨rfl, rfl⟩
  | write a v => exact ⟨rfl, rfl⟩
  | fetchCallback c addr mode =>
    have hx : mode ≠ .x := by
      rintro rfl
      exact ho
    constructor
    · exact if_neg fun h => hx h.1
    · exact (btrace_called vram hcb c addr mode e).trans (if_neg fun h => hx h.1)

/-- What asks for no opcode fetch leaves the records alone. -/
theorem keeps_notFetch {m : CpuM Unit} {s : Sys Cpu (Traced σ)}
    (hm : ∀ o ∈ asked (traced B vram callback) m s, Cpu.NotFetch o) :
    SameRecords s.env (post (traced B vram callback) m s).env :=
  run_along (R := SameRecords) (fun _ => ⟨rfl, rfl⟩)
    (fun _ _ _ h h' => ⟨h'.tracefile.trans h.tracefile, h'.btrace.trans h.btrace⟩)
    (fun _ e ho => sameRecords_op vram hcb ho e) hm

/-- After its opcode fetch a `run` leaves the records alone. -/
theorem sameRecords_run {s : Sys Cpu (Traced σ)} (hf : Fetches s.chip) :
    SameRecords (Cpu.called (traced B vram callback) s.chip s.chip.r.pc .x s.env)
      (Cpu.call (traced B vram callback) s .run).env := by
  show SameRecords _ (post _ Cpu.run s).env
  rw [Cpu.post_run_instr _ s hf.1 hf.2]
  obtain ⟨hfile, hbtrace⟩ := keeps_notFetch vram hcb
    (Cpu.exec_notFetch (traced B vram callback) (Cpu.fetched (traced B vram callback) s)
      (Cpu.executeTab (Cpu.opcode (traced B vram callback) s)))
  exact ⟨hfile, hbtrace⟩

/-- A call that is not recorded. -/
theorem sameRecords_call {s : Sys Cpu (Traced σ)} {c : Cpu.Call}
    (hc : ¬Recorded callback (s, .cpu c)) :
    SameRecords s.env (Cpu.call (traced B vram callback) s c).env := by
  by_cases hrun : c = .run
  · subst hrun
    by_cases hf : Fetches s.chip
    · have hw : ¬Watches callback s.env.sys.chip := fun hw => hc ⟨rfl, hf, hw⟩
      obtain ⟨hfile, hbtrace⟩ := sameRecords_run vram hcb hf
      constructor
      · rw [hfile]
        exact if_neg fun h => hw h.2
      · rw [hbtrace, btrace_called vram hcb, if_neg fun h => hw h.2]
    · exact keeps_notFetch vram hcb (run_notFetch _ hf)
  · exact keeps_notFetch vram hcb (Cpu.call_notFetch _ s c hrun)

/-- What a recorded call writes down: a line with the status before the fetch, and the status. -/
theorem call_recorded {s : Sys Cpu (Traced σ)} (hc : Recorded callback (s, .cpu .run)) :
    let st := val B Cpu.status ⟨s.chip, s.env.sys.env⟩
    let s' := Cpu.call (traced B vram callback) s .run
    (∃ v, s'.env.tracefile = s.env.tracefile.map (· ++ [traceLine st v])) ∧
      s'.env.sys.chip.btrace = (s.env.sys.chip.updateBacktrace st).btrace := by
  intro st s'
  obtain ⟨-, hf, hw⟩ := hc
  obtain ⟨hfile, hbtrace⟩ := sameRecords_run vram hcb hf
  constructor
  · exact ⟨_, hfile.trans (if_pos ⟨rfl, hw⟩)⟩
  · rw [hbtrace, btrace_called vram hcb, if_pos ⟨rfl, hw⟩]

omit hcb in
/-- The status of a CPU whose instruction can be read without side effects. -/
theorem status_plain {s : Sys Cpu (Traced σ)} (hs : Plain B s) :
    let mem := s.env.sys.env
    val B Cpu.status ⟨s.chip, mem⟩ = ⟨s.chip.r, Cpu.readVal B s.chip.r.pc mem,
        Reg16.ofBytes (Cpu.readVal B (s.chip.r.pc + 1) mem)
          (Cpu.readVal B (s.chip.r.pc + 2) mem)⟩ ∧
      (post B Cpu.status ⟨s.chip, mem⟩).env = mem := by
  intro mem
  have h0 : Cpu.readEnv B s.chip.r.pc mem = mem := hs.reads _ (by simp)
  have h1 : Cpu.readEnv B (s.chip.r.pc + 1#16) mem = mem := hs.reads _ (by simp)
  have h2 : Cpu.readEnv B (s.chip.r.pc + 2#16) mem = mem := hs.reads _ (by simp)
  simp [Cpu.status, h0, h1, h2]

/-- The bytes of the status are those that are executed. -/
theorem names_of_plain {s : Sys Cpu (Traced σ)} (hf : Fetches s.chip) (hs : Plain B s) :
    Names (traced B vram callback) s (val B Cpu.status ⟨s.chip, s.env.sys.env⟩) := by
  obtain ⟨hval, henv⟩ := status_plain hs
  have hcalled : (Cpu.called (traced B vram callback) s.chip s.chip.r.pc .x s.env).sys.env =
      s.env.sys.env := by
    rw [sys_called, fetchCallback_env hcb]
    exact henv
  have hopcode : Cpu.opcode (traced B vram callback) s =
      Cpu.readVal B s.chip.r.pc s.env.sys.env :=
    congrArg (Cpu.readVal B s.chip.r.pc) hcalled
  have hfetched : (Cpu.fetched (traced B vram callback) s).env.sys.env = s.env.sys.env := by
    show Cpu.readEnv B s.chip.r.pc (Cpu.called (traced B vram callback) _ _ .x s.env).sys.env = _
    rw [hcalled]
    exact hs.reads _ (List.mem_cons_self ..)
  have hread (a : Uint16) :
      Cpu.readVal (traced B vram callback) a (Cpu.fetched (traced B vram callback) s).env =
        Cpu.readVal B a s.env.sys.env := congrArg (Cpu.readVal B a) hfetched
  rw [hval]
  refine ⟨rfl, ?_⟩
  show Cpu.Tells _ _ _ (post _ Cpu.run s)
  rw [Cpu.post_run_instr _ s hf.1 hf.2, hopcode, Reg16.low_ofBytes, Reg16.high_ofBytes]
  apply Cpu.tells_execute
  · exact hs.agrees
  · exact hread (s.chip.r.pc + 1)
  · refine (hread (s.chip.r.pc + 1 + 1)).trans ?_
    rw [BitVec.add_assoc]
    rfl

end Call

/-! ### Runs -/

/-- The instructions since the trace file was opened. -/
def inFile (callback : Option BreakCallback) (ms : List (Sys Cpu (Traced σ) × TraceCall)) :
    List (Sys Cpu (Traced σ)) :=
  ms.foldl (fun since m => match m.2 with
    | .cpu _ => if Recorded callback m then since ++ [m.1] else since
    | .startTracing => []
    | .stopTracing => since) []

/-- After the moments `ms` of a run the lines of an open trace file name, one by one, the
instructions executed since it was opened, and each entry of the backtrace names one that was
executed. -/
structure Recalls (H : Handler cpuSig (Traced σ)) (callback : Option BreakCallback)
    (ms : List (Sys Cpu (Traced σ) × TraceCall)) (e : Traced σ) : Prop where
  tracefile : ∀ lines, e.tracefile = some lines →
    List.Forall₂ (LineNames H) (inFile callback ms) lines
  btrace : ∀ st ∈ e.sys.chip.btrace, ∃ m ∈ ms, Recorded callback m ∧ Names H m.1 st

theorem inFile_concat (callback : Option BreakCallback)
    (ms : List (Sys Cpu (Traced σ) × TraceCall)) (s : Sys Cpu (Traced σ)) (c : Cpu.Call) :
    inFile callback (ms ++ [(s, .cpu c)]) =
      if Recorded callback (s, .cpu c) then inFile callback ms ++ [s] else inFile callback ms := by
  unfold inFile
  rw [List.foldl_append]
  rfl

theorem mem_updateBacktrace {d : Debugger} {st x : Cpu.Status}
    (hx : x ∈ (d.updateBacktrace st).btrace) : x ∈ d.btrace ∨ x = st := by
  unfold updateBacktrace at hx
  split at hx
  case h_4 =>
    split at hx
    · exact .inl hx
    · split at hx
      · exact .inl (List.mem_of_mem_dropLast hx)
      · exact .inl hx
  case h_5 => exact .inl hx
  all_goals
    rcases List.mem_append.mp hx with hx | hx
    · exact .inl hx
    · exact .inr (List.mem_singleton.mp hx)

/-- A call of the CPU adds what it executes to the records. -/
theorem Recalls.call (hcb : ∀ cb ∈ callback, Polite B cb)
    {ms : List (Sys Cpu (Traced σ) × TraceCall)} {s : Sys Cpu (Traced σ)}
    (h : Recalls (traced B vram callback) callback ms s.env) (c : Cpu.Call)
    (hplain : Recorded callback (s, .cpu c) → Plain B s) :
    Recalls (traced B vram callback) callback (ms ++ [(s, .cpu c)])
      (Cpu.call (traced B vram callback) s c).env := by
  by_cases hc : Recorded callback (s, .cpu c)
  · obtain rfl : c = .run := TraceCall.cpu.inj hc.1
    obtain ⟨⟨v, hfile⟩, hbtrace⟩ := call_recorded vram hcb hc
    have hnames := names_of_plain vram hcb hc.2.1 (hplain hc)
    constructor
    · intro lines hlines
      rw [hfile, Option.map_eq_some_iff] at hlines
      obtain ⟨before, hbefore, rfl⟩ := hlines
      rw [inFile_concat, if_pos hc]
      apply List.rel_append (h.tracefile before hbefore)
      exact .cons ⟨_, v, rfl, hnames⟩ .nil
    · intro st hst
      rw [hbtrace] at hst
      rcases mem_updateBacktrace hst with hst | rfl
      · obtain ⟨m, hm, hrec⟩ := h.btrace st hst
        exact ⟨m, List.mem_append_left _ hm, hrec⟩
      · exact ⟨_, List.mem_append_right _ (List.mem_singleton_self _), hc, hnames⟩
  · have hsame := sameRecords_call vram hcb hc
    constructor
    · intro lines hlines
      rw [inFile_concat, if_neg hc]
      exact h.tracefile lines (hsame.tracefile ▸ hlines)
    · intro st hst
      rw [hsame.btrace] at hst
      obtain ⟨m, hm, hrec⟩ := h.btrace st hst
      exact ⟨m, List.mem_append_left _ hm, hrec⟩

/-- The records of a run that starts without a trace file and with an empty backtrace. -/
theorem recalls_after (hcb : ∀ cb ∈ callback, Polite B cb) {s : Sys Cpu (Traced σ)}
    (hfile : s.env.tracefile = none) (hbtrace : s.env.sys.chip.btrace = []) (calls : List TraceCall)
    (hplain : ∀ m ∈ moments (traceCall (traced B vram callback)) s calls,
      Recorded callback m → Plain B m.1) :
    Recalls (traced B vram callback) callback
      (moments (traceCall (traced B vram callback)) s calls)
      (after (traceCall (traced B vram callback)) s calls).env := by
  induction calls using List.reverseRecOn with
  | nil =>
    constructor
    · intro lines hlines
      rw [after_nil, hfile] at hlines
      cases hlines
    · intro st hst
      rw [after_nil, hbtrace] at hst
      cases hst
  | append_singleton calls call ih =>
    rw [moments_concat] at hplain ⊢
    rw [after_concat]
    have hbefore := ih fun m hm => hplain m (List.mem_append_left _ hm)
    have hlast := hplain _ (List.mem_append_right _ (List.mem_singleton_self _))
    cases call with
    | cpu c => exact hbefore.call vram hcb c hlast
    | startTracing =>
      constructor
      · rintro lines ⟨⟩
        unfold inFile
        rw [List.foldl_append]
        exact .nil
      · intro st hst
        obtain ⟨m, hm, hrec⟩ := hbefore.btrace st hst
        exact ⟨m, List.mem_append_left _ hm, hrec⟩
    | stopTracing =>
      constructor
      · rintro lines ⟨⟩
      · intro st hst
        obtain ⟨m, hm, hrec⟩ := hbefore.btrace st hst
        exact ⟨m, List.mem_append_left _ hm, hrec⟩

/-- **Disassembly.** The text of the bytes at the program counter tells what executing the opcode
does exactly if the tables agree on the opcode: always but for SED, and for STY zp,X only if A and
Y are equal. Then the step is the operation of the text in its mode, as the machine of `Isa.State`
has it. In every run whose recorded instructions are plain, from the start of a session and
whatever is traced when, the trace file and the backtrace name the instructions executed. -/
theorem disassembly_names (id : Uint8) (s : Sys Cpu Mem) (vram : σ → Uint16)
    (hcb : ∀ cb ∈ callback, Polite B cb) {session : Sys Cpu (Traced σ)}
    (hfile : session.env.tracefile = none) (hbtrace : session.env.sys.chip.btrace = [])
    (calls : List TraceCall)
    (hplain : ∀ m ∈ moments (traceCall (traced B vram callback)) session calls,
      Recorded callback m → Plain B m.1) :
    (Cpu.Tells flatMem (disassemble id (s.env s.chip.r.pc) (s.env (s.chip.r.pc + 1))) s
        (post flatMem (Cpu.execute id) s) ↔ Cpu.Agrees id s.chip.r) ∧
      (Cpu.Agrees id s.chip.r → ∀ i : Instr,
        i.text = disassemble id (s.env s.chip.r.pc) (s.env (s.chip.r.pc + 1)) →
        Isa.view (post flatMem (Cpu.execute id) s) =
          (Isa.view (Cpu.unfetched s)).instr (Cpu.operation i.mode i.name) i.mode) ∧
      Recalls (traced B vram callback) callback
        (moments (traceCall (traced B vram callback)) session calls)
        (after (traceCall (traced B vram callback)) session calls).env :=
  ⟨Cpu.tells_iff id s, fun h _ hi => ((Cpu.tells_iff id s).mpr h).view hi,
    recalls_after vram hcb hfile hbtrace calls hplain⟩

theorem polite_stepper (hp : PureReads B) : Polite B stepper := by
  have hstep (c : Cpu) (ev : Event) (e : Sys Debugger σ) :
      (post B (stepper c ev) e).env = e.env ∧
        (post B (stepper c ev) e).chip.btrace = e.chip.btrace := by
    unfold stepper
    cases ev.type with
    | fetch => simp [step, nextaddr_env hp]
    | brk => exact ⟨rfl, rfl⟩
  exact ⟨fun c ev e => (hstep c ev e).1, fun c ev e => (hstep c ev e).2⟩

/-- The start of a session, before NOPs. -/
def nopSession : Sys Cpu (Traced Mem) := ⟨{}, ⟨none, ⟨{}, Cpu.nops⟩⟩⟩

/-- A NOP, and two NOPs that are traced. -/
theorem disassembly_names_nops :
    Cpu.Tells flatMem (disassemble 0xEA 0xEA 0xEA) ⟨{}, Cpu.nops⟩
        (post flatMem (Cpu.execute 0xEA) ⟨{}, Cpu.nops⟩) ∧
      Isa.view (post flatMem (Cpu.execute 0xEA) ⟨{}, Cpu.nops⟩) =
        (Isa.view (Cpu.unfetched ⟨{}, Cpu.nops⟩)).instr (.impld .nop) .impld ∧
      Recalls (traced flatMem (fun _ => 0) (some stepper)) (some stepper)
        (moments (traceCall (traced flatMem (fun _ => 0) (some stepper))) nopSession
          [.startTracing, .cpu .run, .cpu .run])
        (after (traceCall (traced flatMem (fun _ => 0) (some stepper))) nopSession
          [.startTracing, .cpu .run, .cpu .run]).env := by
  have hpolite : ∀ cb ∈ some stepper, Polite flatMem cb := by
    rintro cb ⟨⟩
    exact polite_stepper pureReads_flatMem
  have hplain : ∀ m ∈ moments (traceCall (traced flatMem (fun _ => 0) (some stepper))) nopSession
      [.startTracing, .cpu .run, .cpu .run], Recorded (some stepper) m → Plain flatMem m.1 := by
    simp only [moments_cons, moments_nil, List.forall_mem_cons]
    refine ⟨?_, ?_, ?_, by simp⟩
    · rintro ⟨⟨⟩, -⟩
    · intro _
      exact ⟨fun a _ => rfl, by decide⟩
    · intro _
      exact ⟨fun a _ => rfl, by decide⟩
  obtain ⟨htells, hmachine, hrecalls⟩ :=
    disassembly_names 0xEA ⟨{}, Cpu.nops⟩ (fun _ => 0) hpolite rfl rfl _ hplain
  exact ⟨htells.mpr (by decide), hmachine (by decide) ⟨.nop, .impld, 0xEA, 0xEA⟩ rfl, hrecalls⟩

example : (after (traceCall (traced flatMem (fun _ => 0) (some stepper))) nopSession
    [.startTracing, .cpu .run, .cpu .run]).env.tracefile = some [
      "PC: $0000 A: $00 X: $00 Y: $00 SP: $00 nvUbdizc V: 0000 [$EA] nop\n",
      "PC: $0001 A: $00 X: $00 Y: $00 SP: $00 nvUbdizc V: 0000 [$EA] nop\n"] := by decide

/-- `STY $10,X` after its opcode, with 0 in A and 1 in Y. -/
def atSty : Sys Cpu Mem := ⟨{ r.pc := 1, r.y := 1 }, fun a => if a.toNat = 0 then 0x94 else 0x10⟩

/-- The text is that of STA, but it is Y that is stored; and SED, which sets D, is unknown. -/
theorem not_disassembly_names :
    (disassemble 0x94 0x10 0x10 = "sta $10,x" ∧
        (post flatMem (Cpu.execute 0x94) atSty).env 0x10 = 1 ∧
        ¬Cpu.Tells flatMem (disassemble 0x94 0x10 0x10) atSty
          (post flatMem (Cpu.execute 0x94) atSty)) ∧
      disassemble 0xF8 0x10 0x10 = "[Unknown]" ∧
        (post flatMem (Cpu.execute 0xF8) atSty).chip.r.flags.decimal = true ∧
        ¬Cpu.Tells flatMem (disassemble 0xF8 0x10 0x10) atSty
          (post flatMem (Cpu.execute 0xF8) atSty) := by
  refine ⟨⟨by decide, by decide, ?_⟩, by decide, rfl, Cpu.not_tells_sed⟩
  intro h
  exact absurd (Cpu.acc_eq_y_of_tells h) (by decide)

end Debugger

end Yanesemu
